import Mathlib.LinearAlgebra.Matrix.ToLinearEquiv
import QuicFuscate.Fec.Proofs.Encoder
import QuicFuscate.Framework.Cauchy

/-!
# Minors of the coefficient generator

Coefficient rows of different repair indices are Cauchy rows at different points, as long as the
points are bytes.  Hence no combination of rows vanishes on as many columns, and every square
selection of rows and columns is nonsingular.
-/

namespace QuicFuscate.Fec

open Framework

private theorem windowPoint_injective {k : ℕ} (hk : k ≤ 256) :
    Function.Injective fun c : Fin k => GF256.mk (UInt8.ofNat c.val) := by
  intro a b hab
  have hmod := ofNat_byte_eq_iff.mp (GF256.mk_injective hab)
  have ha := a.isLt
  have hb := b.isLt
  exact Fin.ext (by omega)

theorem cauchyRow_independent {ι : Type} [DecidableEq ι] {k : ℕ} {T : Finset ι} {r : ι → ℕ} {C : Finset (Fin k)}
    {w : ι → GF256} (hr : Set.InjOn r T) (hpoint : ∀ t ∈ T, k + r t ≤ 255) (hcard : T.card ≤ C.card)
    (hzero : ∀ c ∈ C, ∑ t ∈ T, w t * GF256.mk ((cauchyRow k (r t)).getD c 0) = 0) : ∀ t ∈ T, w t = 0 := by
  intro t₀ ht₀
  have hk := hpoint t₀ ht₀
  apply cauchy_combination_eq_zero T (fun t => GF256.mk (UInt8.ofNat (k + r t))) w
    (C.image fun c : Fin k => GF256.mk (UInt8.ofNat c.val)) _ _ _ _ t₀ ht₀
  · intro t ht u hu htu
    have hmod := ofNat_byte_eq_iff.mp (GF256.mk_injective htu)
    have h1 := hpoint t ht
    have h2 := hpoint u hu
    exact hr ht hu (by omega)
  · rwa [Finset.card_image_of_injective _ (windowPoint_injective (by omega))]
  · intro x hx t ht
    obtain ⟨c, -, rfl⟩ := Finset.mem_image.mp hx
    intro heq
    exact pointsDistinct_of_le (hpoint t ht) c.val c.isLt (GF256.mk_injective heq)
  · intro x hx
    obtain ⟨c, hc, rfl⟩ := Finset.mem_image.mp hx
    rw [← hzero c hc]
    apply Finset.sum_congr rfl
    intro t ht
    rw [mk_cauchyRow (pointsDistinct_of_le (hpoint t ht)) c.isLt]

def minor {m : ℕ} (rows : Fin m → List UInt8) (c : Fin m → ℕ) : Matrix (Fin m) (Fin m) GF256 :=
  fun a b => GF256.mk ((rows a).getD (c b) 0)

/-- The generator yields a row for every repair index whose point is a byte, and every square selection
of rows and columns is nonsingular. -/
theorem generateCauchyCoefficients_mds (e : Encoder) {m : ℕ} {r c : Fin m → ℕ} (hr : Function.Injective r)
    (hpoint : ∀ a, e.k + r a ≤ 255) (hc : Function.Injective c) (hcol : ∀ b, c b < e.k) :
    ∃ rows : Fin m → List UInt8, (∀ a, e.generateCauchyCoefficients (r a) = .ok (rows a) ∧ (rows a).length = e.k) ∧
      (minor rows c).det ≠ 0 := by
  refine ⟨fun a => cauchyRow e.k (r a), fun a => ⟨?_, cauchyRow_length _ _⟩, ?_⟩
  · exact generateCauchyCoefficients_ok (pointsDistinct_of_le (hpoint a))
  · intro hdet
    obtain ⟨w, hw, hzero⟩ := Matrix.exists_vecMul_eq_zero_iff.mpr hdet
    have hcols : Function.Injective fun b => (⟨c b, hcol b⟩ : Fin e.k) := by
      intro a b hab
      exact hc (congrArg Fin.val hab)
    apply hw
    funext a
    apply cauchyRow_independent (T := Finset.univ) (C := Finset.univ.image fun b => (⟨c b, hcol b⟩ : Fin e.k))
      hr.injOn (fun t _ => hpoint t)
    · rw [Finset.card_image_of_injective _ hcols]
    · intro col hcol'
      obtain ⟨b, -, rfl⟩ := Finset.mem_image.mp hcol'
      exact congrFun hzero b
    · exact Finset.mem_univ a

theorem generateCauchyCoefficients_mds_pair : ∃ rows : Fin 2 → List UInt8,
    (∀ a, (Encoder.new 3 5).generateCauchyCoefficients (![0, 1] a) = .ok (rows a) ∧ (rows a).length = 3) ∧
      (minor rows ![2, 0]).det ≠ 0 :=
  generateCauchyCoefficients_mds (Encoder.new 3 5) (by decide) (by decide) (by decide) (by decide)

end QuicFuscate.Fec
