import Mathlib.Algebra.CharP.Lemmas
import Mathlib.Algebra.Polynomial.Div
import Mathlib.FieldTheory.Finite.Basic
import Mathlib.RingTheory.AdjoinRoot

/-!
# Words as polynomials over GF(2)

The bits of a word of `w` bits are the coefficients of a polynomial of degree less than `w`.  Addition
is exclusive or; a shift to the left that loses its carry is multiplication by `X` modulo `X ^ w`.
-/

namespace QuicFuscate.Framework

open Polynomial

noncomputable def ofBits (w n : ℕ) : (ZMod 2)[X] := ∑ i ∈ Finset.range w, if n.testBit i then X ^ i else 0

variable {w m n : ℕ}

@[simp] theorem coeff_ofBits (w n i : ℕ) : (ofBits w n).coeff i = if i < w ∧ n.testBit i then 1 else 0 := by
  have hterm : ∀ j, (if n.testBit j then (X : (ZMod 2)[X]) ^ j else 0).coeff i =
      if i = j then (if n.testBit i then 1 else 0) else 0 := by
    intro j
    by_cases hij : i = j
    · subst hij
      split <;> simp
    · rw [if_neg hij]
      split <;> simp [coeff_X_pow, hij]
  simp only [ofBits, finsetSum_coeff, hterm, Finset.sum_ite_eq, Finset.mem_range, ite_and]

theorem degree_ofBits_lt (w n : ℕ) : (ofBits w n).degree < w := by
  rw [degree_lt_iff_coeff_zero]
  intro i hi
  rw [coeff_ofBits, if_neg (by omega)]

theorem degree_mul_ofBits_lt (w m n : ℕ) : (ofBits w m * ofBits w n).degree < ↑(2 * w) := by
  rw [degree_lt_iff_coeff_zero]
  intro k hk
  rw [coeff_mul]
  apply Finset.sum_eq_zero
  rintro ⟨i, j⟩ hij
  rw [Finset.HasAntidiagonal.mem_antidiagonal] at hij
  rcases Nat.lt_or_ge i w with hi | hi
  · rw [coeff_ofBits w n, if_neg (by omega), mul_zero]
  · rw [coeff_ofBits w m, if_neg (by omega), zero_mul]

@[simp] theorem ofBits_zero (w : ℕ) : ofBits w 0 = 0 := by simp [ofBits]

theorem ofBits_one (hw : 0 < w) : ofBits w 1 = 1 := by
  ext i
  rw [coeff_ofBits, coeff_one]
  cases i with
  | zero => simp [hw]
  | succ i => simp [Nat.testBit_succ]

theorem ofBits_xor (w m n : ℕ) : ofBits w (m ^^^ n) = ofBits w m + ofBits w n := by
  have htwo : (1 : ZMod 2) + 1 = 0 := rfl
  ext i
  simp only [coeff_add, coeff_ofBits, Nat.testBit_xor]
  by_cases hi : i < w
  · cases m.testBit i <;> cases n.testBit i <;> simp [hi, htwo]
  · simp [hi]

theorem ofBits_mod (w n : ℕ) : ofBits w (n % 2 ^ w) = ofBits w n := by
  ext i
  simp only [coeff_ofBits, Nat.testBit_mod_two_pow]
  by_cases hi : i < w <;> simp [hi]

theorem ofBits_inj (hm : m < 2 ^ w) (hn : n < 2 ^ w) : ofBits w m = ofBits w n ↔ m = n := by
  refine ⟨fun h => Nat.eq_of_testBit_eq fun i => ?_, fun h => h ▸ rfl⟩
  by_cases hi : i < w
  · have hcoeff := congrArg (coeff · i) h
    simp only [coeff_ofBits, hi, true_and] at hcoeff
    cases hmi : m.testBit i <;> cases hni : n.testBit i <;> simp_all
  · have hpow : 2 ^ w ≤ 2 ^ i := Nat.pow_le_pow_right two_pos (by omega)
    rw [Nat.testBit_lt_two_pow (hm.trans_le hpow), Nat.testBit_lt_two_pow (hn.trans_le hpow)]

theorem natDegree_ofBits (hn : n < 2 ^ w) (hpos : n ≠ 0) : (ofBits w n).natDegree = n.log2 := by
  have hlog : n.log2 < w := (Nat.log2_lt hpos).mpr hn
  apply natDegree_eq_of_le_of_coeff_ne_zero
  · rw [natDegree_le_iff_coeff_eq_zero]
    intro i hi
    have hlt : n < 2 ^ i := (Nat.log2_lt hpos).mp hi
    rw [coeff_ofBits, Nat.testBit_lt_two_pow hlt]
    simp
  · rw [coeff_ofBits, Nat.testBit_log2 hpos]
    simp [hlog]

/-! ## Modulo a power of the indeterminate -/

noncomputable def residue (w n : ℕ) : AdjoinRoot (X ^ w : (ZMod 2)[X]) := AdjoinRoot.mk _ (ofBits w n)

theorem residue_eq_iff_coeff {f g : (ZMod 2)[X]} :
    AdjoinRoot.mk (X ^ w) f = AdjoinRoot.mk (X ^ w) g ↔ ∀ i < w, f.coeff i = g.coeff i := by
  simp only [AdjoinRoot.mk_eq_mk, X_pow_dvd_iff, coeff_sub, sub_eq_zero]

theorem residue_inj (hm : m < 2 ^ w) (hn : n < 2 ^ w) : residue w m = residue w n ↔ m = n := by
  rw [← ofBits_inj hm hn, residue, residue, residue_eq_iff_coeff]
  refine ⟨fun h => ?_, fun h i _ => h ▸ rfl⟩
  ext i
  by_cases hi : i < w
  · exact h i hi
  · simp [hi]

@[simp] theorem residue_zero (w : ℕ) : residue w 0 = 0 := by simp [residue]

theorem residue_one (hw : 0 < w) : residue w 1 = 1 := by rw [residue, ofBits_one hw, map_one]

theorem residue_xor (w m n : ℕ) : residue w (m ^^^ n) = residue w m + residue w n := by
  rw [residue, ofBits_xor, map_add]
  rfl

theorem residue_two_mul (w n : ℕ) : residue w (2 * n % 2 ^ w) = AdjoinRoot.root _ * residue w n := by
  rw [residue, residue, ofBits_mod, AdjoinRoot.root, ← map_mul, residue_eq_iff_coeff]
  intro i hi
  cases i with
  | zero => simp
  | succ i =>
      have hi' : i < w := by omega
      rw [coeff_X_mul, coeff_ofBits, coeff_ofBits, Nat.testBit_succ, Nat.mul_div_cancel_left n two_pos]
      simp [hi, hi']

theorem residue_div_two (w n : ℕ) :
    residue w n = (if n % 2 = 1 then 1 else 0) + AdjoinRoot.root _ * residue w (n / 2) := by
  have hbit : (if n % 2 = 1 then 1 else 0 : AdjoinRoot (X ^ w : (ZMod 2)[X])) =
      AdjoinRoot.mk _ (C (if n % 2 = 1 then 1 else 0)) := by
    split
    · rw [C_1, map_one]
    · rw [C_0, map_zero]
  rw [hbit, residue, residue, AdjoinRoot.root, ← map_mul, ← map_add, residue_eq_iff_coeff]
  intro i hi
  cases i with
  | zero =>
      rw [coeff_add, coeff_C_zero, mul_coeff_zero, coeff_X_zero, zero_mul, add_zero, coeff_ofBits, Nat.testBit_zero]
      simp [hi]
  | succ i =>
      have hi' : i < w := by omega
      rw [coeff_add, coeff_C_succ, coeff_X_mul, coeff_ofBits, coeff_ofBits, Nat.testBit_succ]
      simp [hi, hi']

theorem pow_eq_zero_or_one {k : ℕ} (hk : w ≤ 2 ^ k) (y : AdjoinRoot (X ^ w : (ZMod 2)[X])) :
    y ^ 2 ^ k = 0 ∨ y ^ 2 ^ k = 1 := by
  obtain ⟨f, rfl⟩ := AdjoinRoot.mk_surjective y
  have hpow : AdjoinRoot.mk (X ^ w) f ^ 2 ^ k = AdjoinRoot.mk (X ^ w) (C (f.coeff 0)) := by
    have hsplit : f ^ 2 ^ k = f.divX ^ 2 ^ k * X ^ 2 ^ k + C (f.coeff 0) := by
      calc
        f ^ 2 ^ k = (f.divX * X + C (f.coeff 0)) ^ 2 ^ k := by rw [divX_mul_X_add]
        _ = (f.divX * X) ^ 2 ^ k + C (f.coeff 0) ^ 2 ^ k := add_pow_char_pow _ _ 2 k
        _ = f.divX ^ 2 ^ k * X ^ 2 ^ k + C (f.coeff 0) := by rw [mul_pow, ← C_pow, ZMod.pow_card_pow]
    have hdvd : (X : (ZMod 2)[X]) ^ w ∣ f.divX ^ 2 ^ k * X ^ 2 ^ k := Dvd.dvd.mul_left (pow_dvd_pow X hk) _
    rw [← map_pow, hsplit, map_add, AdjoinRoot.mk_eq_zero.mpr hdvd, zero_add]
  rw [hpow]
  have hbit : ∀ c : ZMod 2, c = 0 ∨ c = 1 := by decide
  rcases hbit (f.coeff 0) with hc | hc
  · exact .inl (by rw [hc, C_0, map_zero])
  · exact .inr (by rw [hc, C_1, map_one])

/-- The power that inverts the elements of a field with `2 ^ k` elements inverts only one here. -/
theorem mul_pow_eq_one_iff (hw : 0 < w) {k : ℕ} (hk : w ≤ 2 ^ k) (hk₁ : 1 ≤ k)
    (y : AdjoinRoot (X ^ w : (ZMod 2)[X])) : y * y ^ (2 ^ k - 2) = 1 ↔ y = 1 := by
  refine ⟨fun hinv => ?_, fun h => by rw [h, one_pow, one_mul]⟩
  have htwo : 2 ^ 1 ≤ 2 ^ k := Nat.pow_le_pow_right two_pos hk₁
  have hfull : y ^ 2 ^ k = y := by
    calc
      y ^ 2 ^ k = y * y ^ (2 ^ k - 2) * y := by
        rw [← pow_succ', ← pow_succ]
        congr 1
        omega
      _ = y := by rw [hinv, one_mul]
  rcases pow_eq_zero_or_one hk y with hzero | hone
  · have hcast : residue w 1 = residue w 0 := by
      rw [residue_one hw, residue_zero, ← hinv, ← hfull, hzero, zero_mul]
    rw [residue_inj (Nat.one_lt_two_pow hw.ne') (Nat.two_pow_pos w)] at hcast
    cases hcast
  · rwa [hfull] at hone

/-- A product that is only cut off at `X ^ w` is reduced modulo a polynomial of degree `w` without the
factor `X` exactly if there was nothing to cut off. -/
theorem modByMonic_eq_iff_degree_lt {P f r : (ZMod 2)[X]} (hP : P.Monic) (hw : P.natDegree = w)
    (hX : IsCoprime P X) (hf : f.degree < ↑(2 * w)) (hr : r.degree < w)
    (hmod : AdjoinRoot.mk (X ^ w) f = AdjoinRoot.mk (X ^ w) r) : f %ₘ P = r ↔ f.degree < w := by
  have hPdeg : P.degree = w := by rw [degree_eq_natDegree hP.ne_zero, hw]
  constructor
  · intro hrem
    have hdvd : P ∣ f - r := by
      rw [← modByMonic_eq_zero_iff_dvd hP, sub_modByMonic, hrem, (modByMonic_eq_self_iff hP).mpr (hPdeg ▸ hr),
        sub_self]
    have hboth : P * X ^ w ∣ f - r := (hX.pow_right).mul_dvd hdvd (AdjoinRoot.mk_eq_mk.mp hmod)
    have hsame : f - r = 0 := by
      apply eq_zero_of_dvd_of_degree_lt hboth
      rw [degree_mul, hPdeg, degree_X_pow, ← Nat.cast_add, ← Nat.two_mul]
      have hshort : (w : WithBot ℕ) ≤ ↑(2 * w) := by exact_mod_cast (by omega : w ≤ 2 * w)
      exact (degree_sub_le f r).trans_lt (max_lt hf (hr.trans_le hshort))
    rwa [sub_eq_zero.mp hsame]
  · intro hlt
    rw [(modByMonic_eq_self_iff hP).mpr (hPdeg ▸ hlt)]
    ext i
    by_cases hi : i < w
    · exact residue_eq_iff_coeff.mp hmod i hi
    · rw [coeff_eq_zero_of_degree_lt (hlt.trans_le (by exact_mod_cast not_lt.mp hi)),
        coeff_eq_zero_of_degree_lt (hr.trans_le (by exact_mod_cast not_lt.mp hi))]

end QuicFuscate.Framework
