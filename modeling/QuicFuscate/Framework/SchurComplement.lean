import Mathlib.LinearAlgebra.Matrix.SchurComplement

/-!
# Leading minors and Schur complements

A table of entries gives one matrix for every size.  Splitting off a leading block with an inverse
leaves the Schur complement: its leading minors are those of the table beyond the block, up to the
determinant of the block, and the inverse of the whole is assembled from the inverses of the two.
-/

namespace QuicFuscate.Framework

open Matrix

variable {K : Type} {p q : ℕ}

def block (f : ℕ → ℕ → K) (r₀ c₀ rows cols : ℕ) : Matrix (Fin rows) (Fin cols) K := fun r c => f (r₀ + r) (c₀ + c)

def leading (f : ℕ → ℕ → K) (n : ℕ) : Matrix (Fin n) (Fin n) K := fun r c => f r c

theorem leading_submatrix (f : ℕ → ℕ → K) (p q : ℕ) :
    (leading f (p + q)).submatrix finSumFinEquiv finSumFinEquiv =
      fromBlocks (leading f p) (block f 0 p p q) (block f p 0 q p) (block f p p q q) := by
  ext r c
  cases r <;> cases c <;> simp [leading, block]

variable [Field K]

def RegularUpTo (f : ℕ → ℕ → K) (n : ℕ) : Prop := ∀ j ≤ n, (leading f j).det ≠ 0

def schur (f : ℕ → ℕ → K) (p : ℕ) (P : Matrix (Fin p) (Fin p) K) (r c : ℕ) : K :=
  f (p + r) (p + c) - ∑ t : Fin p, (∑ u : Fin p, f (p + r) u * P u t) * f t (p + c)

theorem leading_schur (f : ℕ → ℕ → K) (P : Matrix (Fin p) (Fin p) K) (q : ℕ) :
    leading (schur f p P) q = block f p p q q - block f p 0 q p * P * block f 0 p p q := by
  ext r c
  simp [leading, schur, block, mul_apply]

theorem det_leading_add {f : ℕ → ℕ → K} {P : Matrix (Fin p) (Fin p) K} (hP : leading f p * P = 1) (q : ℕ) :
    (leading f (p + q)).det = (leading f p).det * (leading (schur f p P) q).det := by
  let _ : Invertible (leading f p) := invertibleOfRightInverse _ P hP
  have hinv : ⅟(leading f p) = P := invOf_eq_right_inv hP
  rw [← det_submatrix_equiv_self finSumFinEquiv, leading_submatrix, det_fromBlocks₁₁, hinv, leading_schur]

theorem regularUpTo_add_iff {f : ℕ → ℕ → K} {P : Matrix (Fin p) (Fin p) K} (hP : leading f p * P = 1) (q : ℕ) :
    RegularUpTo f (p + q) ↔ RegularUpTo f p ∧ RegularUpTo (schur f p P) q := by
  have hne : (leading f p).det ≠ 0 := by
    intro hzero
    have hdet := congrArg det hP
    rw [det_mul, hzero, zero_mul, det_one] at hdet
    exact zero_ne_one hdet
  constructor
  · intro h
    refine ⟨fun j hj => h j (by omega), fun j hj hzero => h (p + j) (by omega) ?_⟩
    rw [det_leading_add hP, hzero, mul_zero]
  · rintro ⟨hp, hq⟩ j hj
    rcases Nat.le_total j p with hjp | hpj
    · exact hp j hjp
    · obtain ⟨l, rfl⟩ := Nat.exists_eq_add_of_le hpj
      rw [det_leading_add hP]
      exact mul_ne_zero hne (hq l (by omega))

theorem fromBlocks_mul_eq_one {f : ℕ → ℕ → K} {P : Matrix (Fin p) (Fin p) K} {Q : Matrix (Fin q) (Fin q) K}
    (hP : leading f p * P = 1) (hQ : leading (schur f p P) q * Q = 1) :
    fromBlocks (leading f p) (block f 0 p p q) (block f p 0 q p) (block f p p q q) *
      fromBlocks (P + P * block f 0 p p q * Q * block f p 0 q p * P) (-(P * block f 0 p p q * Q))
        (-(Q * block f p 0 q p * P)) Q = 1 := by
  let _ : Invertible (leading f p) := invertibleOfRightInverse _ P hP
  have hinvP : ⅟(leading f p) = P := invOf_eq_right_inv hP
  rw [leading_schur, ← hinvP] at hQ
  let _ : Invertible (block f p p q q - block f p 0 q p * ⅟(leading f p) * block f 0 p p q) :=
    invertibleOfRightInverse _ Q hQ
  have hinvQ : ⅟(block f p p q q - block f p 0 q p * ⅟(leading f p) * block f 0 p p q) = Q := invOf_eq_right_inv hQ
  let _ := fromBlocks₁₁Invertible (leading f p) (block f 0 p p q) (block f p 0 q p) (block f p p q q)
  rw [← hinvP, ← hinvQ, ← invOf_fromBlocks₁₁_eq, mul_invOf_self]

end QuicFuscate.Framework
