import Mathlib.Tactic.ComputeDegree
import QuicFuscate.Fec.GfTables
import QuicFuscate.Framework.BinaryPolynomial

/-!
# What `gf16_mul` computes

The carry test of `gf16_mul` looks for bit 16 in a word of sixteen bits and never finds it.  The loop
therefore multiplies modulo `X ^ 16`, not modulo the polynomial `0x1100b`, and powers and inverses are
taken in that ring, where only words with an odd constant term are units.
-/

namespace QuicFuscate.Fec

open Framework Polynomial

noncomputable def toPoly (a : UInt16) : (ZMod 2)[X] := ofBits 16 a.toNat

noncomputable def gf16Modulus : (ZMod 2)[X] := X ^ 16 + X ^ 12 + X ^ 3 + X + 1

/-- The word in the ring that `gf16_mul` works in. -/
noncomputable def truncated (a : UInt16) : AdjoinRoot (X ^ 16 : (ZMod 2)[X]) := residue 16 a.toNat

private theorem truncated_inj {a b : UInt16} : truncated a = truncated b ↔ a = b := by
  rw [truncated, truncated, residue_inj a.toNat_lt b.toNat_lt, UInt16.toNat_inj]

private theorem truncated_one : truncated 1 = 1 := residue_one (by decide)

/-! ## The loops -/

private theorem shift_overflow (a : UInt16) :
    (if a &&& UInt16.ofNat 0x10000 ≠ 0 then a ^^^ UInt16.ofNat gf16Poly else a) = a := by
  have hmask : UInt16.ofNat 0x10000 = 0 := rfl
  rw [hmask, UInt16.and_zero, if_neg (by simp)]

private theorem truncated_shiftLeft (a : UInt16) : truncated (a <<< 1) = AdjoinRoot.root _ * truncated a := by
  have hword : (a <<< 1).toNat = 2 * a.toNat % 2 ^ 16 := by
    rw [UInt16.toNat_shiftLeft]
    change a.toNat <<< 1 % 2 ^ 16 = _
    rw [Nat.shiftLeft_eq, pow_one, Nat.mul_comm]
  rw [truncated, hword, residue_two_mul]
  rfl

private theorem toNat_shiftRight_one (b : UInt16) : (b >>> 1).toNat = b.toNat / 2 := by
  rw [UInt16.toNat_shiftRight]
  change b.toNat >>> 1 = _
  rw [Nat.shiftRight_eq_div_pow, pow_one]

private theorem and_one_ne_zero_iff (b : UInt16) : b &&& 1 ≠ 0 ↔ b.toNat % 2 = 1 := by
  rw [← Nat.and_one_is_mod, Ne, ← UInt16.toNat_inj, UInt16.toNat_and]
  change ¬ b.toNat &&& 1 = 0 ↔ b.toNat &&& 1 = 1
  rw [Nat.and_one_is_mod]
  omega

private theorem truncated_gf16MulLoop {fuel : ℕ} {b : UInt16} (hb : b.toNat < 2 ^ fuel) (a res : UInt16) :
    truncated (gf16MulLoop fuel a b res) = truncated res + truncated a * truncated b := by
  induction fuel generalizing a b res with
  | zero =>
      have hzero : b = 0 := by
        rw [← UInt16.toNat_inj]
        exact Nat.lt_one_iff.mp hb
      simp [gf16MulLoop, hzero, truncated]
  | succ fuel ih =>
      rw [gf16MulLoop]
      split
      · rename_i hzero
        simp [hzero, truncated]
      · dsimp only
        rw [shift_overflow, ih (by rw [toNat_shiftRight_one]; omega), truncated_shiftLeft]
        have hsplit := residue_div_two 16 b.toNat
        rw [← toNat_shiftRight_one] at hsplit
        change truncated b = _ + _ * truncated (b >>> 1) at hsplit
        rw [hsplit]
        by_cases hbit : b.toNat % 2 = 1
        · rw [if_pos ((and_one_ne_zero_iff b).mpr hbit), if_pos hbit, truncated, UInt16.toNat_xor, residue_xor]
          change truncated res + truncated a + _ = _
          ring
        · rw [if_neg (mt (and_one_ne_zero_iff b).mp hbit), if_neg hbit]
          ring

private theorem truncated_gf16Mul (a b : UInt16) : truncated (gf16Mul a b) = truncated a * truncated b := by
  rw [gf16Mul, truncated_gf16MulLoop b.toNat_lt, truncated]
  simp

private theorem truncated_gf16PowLoop {fuel : ℕ} {power : UInt32} (hpower : power.toNat < 2 ^ fuel)
    (x result : UInt16) :
    truncated (gf16PowLoop fuel x power result) = truncated result * truncated x ^ power.toNat := by
  induction fuel generalizing x power result with
  | zero =>
      rw [Nat.lt_one_iff.mp hpower, pow_zero, mul_one]
      rfl
  | succ fuel ih =>
      have hhalf : (power >>> 1).toNat = power.toNat / 2 := by
        rw [UInt32.toNat_shiftRight]
        change power.toNat >>> 1 = _
        rw [Nat.shiftRight_eq_div_pow, pow_one]
      have hodd : power &&& 1 ≠ 0 ↔ power.toNat % 2 = 1 := by
        rw [Ne, ← UInt32.toNat_inj, UInt32.toNat_and]
        change ¬ power.toNat &&& 1 = 0 ↔ _
        rw [Nat.and_one_is_mod]
        omega
      have hsquare : truncated x ^ (2 * (power.toNat / 2)) = (truncated x * truncated x) ^ (power.toNat / 2) := by
        rw [pow_mul, pow_two]
      rw [gf16PowLoop]
      split
      · rename_i hzero
        simp [hzero]
      · dsimp only
        rw [ih (by rw [hhalf]; omega), hhalf, truncated_gf16Mul, ← hsquare]
        by_cases hbit : power.toNat % 2 = 1
        · rw [if_pos (hodd.mpr hbit), truncated_gf16Mul, mul_assoc, ← pow_succ',
            show 2 * (power.toNat / 2) + 1 = power.toNat by omega]
        · rw [if_neg (mt hodd.mp hbit), show 2 * (power.toNat / 2) = power.toNat by omega]

private theorem truncated_gf16Pow (x : UInt16) (power : UInt32) :
    truncated (gf16Pow x power) = truncated x ^ power.toNat := by
  rw [gf16Pow, truncated_gf16PowLoop power.toNat_lt, truncated_one, one_mul]

private theorem truncated_foldl_gf16Mul (x acc : UInt16) (n : ℕ) :
    truncated ((List.replicate n x).foldl gf16Mul acc) = truncated acc * truncated x ^ n := by
  induction n generalizing acc with
  | zero => rw [List.replicate_zero, List.foldl_nil, pow_zero, mul_one]
  | succ n ih => rw [List.replicate_succ, List.foldl_cons, ih, truncated_gf16Mul, mul_assoc, ← pow_succ']

/-- Squaring and multiplying computes the product of as many copies of the base as the exponent says. -/
theorem gf16Pow_eq_product (x : UInt16) (power : UInt32) :
    gf16Pow x power = (List.replicate power.toNat x).foldl gf16Mul 1 := by
  rw [← truncated_inj, truncated_gf16Pow, truncated_foldl_gf16Mul, truncated_one, one_mul]

/-! ## The field operations -/

private theorem gf16Modulus_monic : gf16Modulus.Monic := by
  unfold gf16Modulus
  monicity!

private theorem gf16Modulus_natDegree : gf16Modulus.natDegree = 16 := by
  unfold gf16Modulus
  compute_degree!

private theorem gf16Modulus_coprime : IsCoprime gf16Modulus X :=
  ⟨1, -(X ^ 15 + X ^ 11 + X ^ 2 + 1), by unfold gf16Modulus; ring⟩

private theorem toPoly_eq_zero_iff {a : UInt16} : toPoly a = 0 ↔ a = 0 := by
  rw [toPoly, ← ofBits_zero 16, ofBits_inj a.toNat_lt (by decide), ← UInt16.toNat_inj]
  rfl

def Narrow (a b : UInt16) : Prop := a = 0 ∨ b = 0 ∨ a.toNat.log2 + b.toNat.log2 < 16

private theorem degree_mul_lt_iff (a b : UInt16) : (toPoly a * toPoly b).degree < (16 : ℕ) ↔ Narrow a b := by
  by_cases ha : a = 0
  · refine iff_of_true ?_ (.inl ha)
    rw [toPoly_eq_zero_iff.mpr ha, zero_mul, degree_zero]
    exact WithBot.bot_lt_coe 16
  by_cases hb : b = 0
  · refine iff_of_true ?_ (.inr (.inl hb))
    rw [toPoly_eq_zero_iff.mpr hb, mul_zero, degree_zero]
    exact WithBot.bot_lt_coe 16
  have hprod : toPoly a * toPoly b ≠ 0 := mul_ne_zero (mt toPoly_eq_zero_iff.mp ha) (mt toPoly_eq_zero_iff.mp hb)
  have hdeg : (toPoly a * toPoly b).natDegree = a.toNat.log2 + b.toNat.log2 := by
    rw [natDegree_mul (mt toPoly_eq_zero_iff.mp ha) (mt toPoly_eq_zero_iff.mp hb), toPoly, toPoly,
      natDegree_ofBits a.toNat_lt (by simpa [← UInt16.toNat_inj] using ha),
      natDegree_ofBits b.toNat_lt (by simpa [← UInt16.toNat_inj] using hb)]
  rw [degree_eq_natDegree hprod, hdeg, Nat.cast_lt]
  simp [Narrow, ha, hb]

private theorem gf16Mul_reduced_iff (a b : UInt16) :
    toPoly (gf16Mul a b) = (toPoly a * toPoly b) %ₘ gf16Modulus ↔ Narrow a b := by
  have hmod : AdjoinRoot.mk (X ^ 16) (toPoly a * toPoly b) = AdjoinRoot.mk (X ^ 16) (toPoly (gf16Mul a b)) := by
    rw [map_mul]
    exact (truncated_gf16Mul a b).symm
  have hiff := modByMonic_eq_iff_degree_lt gf16Modulus_monic gf16Modulus_natDegree gf16Modulus_coprime
    (degree_mul_ofBits_lt 16 a.toNat b.toNat) (degree_ofBits_lt 16 (gf16Mul a b).toNat) hmod
  rw [← degree_mul_lt_iff, eq_comm]
  exact hiff

/-- In the ring of `gf16_mul`, the power that is to be the inverse of a word undoes it only for one. -/
private theorem gf16Mul_inv_eq_one_iff (x : UInt16) : gf16Mul x (gf16Arith.inv x) = 1 ↔ x = 1 := by
  have hexponent : (0x10000 - 2 : UInt32).toNat = 2 ^ 16 - 2 := rfl
  have hinv : gf16Arith.inv x = gf16Pow x (0x10000 - 2) := by simp only [gf16Arith]
  rw [← truncated_inj, truncated_gf16Mul, hinv, truncated_gf16Pow, hexponent, truncated_one,
    mul_pow_eq_one_iff (by decide) (by norm_num) (by decide), ← truncated_one, truncated_inj]

/-- `gf16_mul` and `gf16_inv` are the operations of the field on the factors whose product fits into a
word, and at one. -/
theorem gf16_field_iff (a b x : UInt16) :
    (toPoly (gf16Mul a b) = (toPoly a * toPoly b) %ₘ gf16Modulus ↔ Narrow a b) ∧
      (x ≠ 0 → ∃ y, gf16Arith.gf16Inv x = .ok y ∧ (gf16Mul x y = 1 ↔ x = 1)) :=
  ⟨gf16Mul_reduced_iff a b, fun hx => ⟨_, if_neg hx, gf16Mul_inv_eq_one_iff x⟩⟩

theorem gf16_field_iff_small : toPoly (gf16Mul 3 5) = (toPoly 3 * toPoly 5) %ₘ gf16Modulus ∧
    ∃ y, gf16Arith.gf16Inv 1 = .ok y ∧ gf16Mul 1 y = 1 := by
  obtain ⟨hmul, hinverse⟩ := gf16_field_iff 3 5 1
  obtain ⟨y, hinv, hone⟩ := hinverse (by decide)
  exact ⟨hmul.mpr (.inr (.inr (by decide))), y, hinv, hone.mpr rfl⟩

/-- The product of `X ^ 15` and `X` is lost instead of reduced to `0x100b`, and `X` has no inverse. -/
theorem gf16_field_fails : gf16Mul 0x8000 2 = 0 ∧
    (toPoly 0x8000 * toPoly 2) %ₘ gf16Modulus = X ^ 12 + X ^ 3 + X + 1 ∧
    toPoly (gf16Mul 0x8000 2) ≠ (toPoly 0x8000 * toPoly 2) %ₘ gf16Modulus ∧
    ∃ y, gf16Arith.gf16Inv 2 = .ok y ∧ gf16Mul 2 y ≠ 1 := by
  have hhigh : toPoly 0x8000 = X ^ 15 := by
    simp [toPoly, ofBits, Finset.sum_range_succ, Nat.testBit, Nat.shiftRight_eq_div_pow]
  have hlow : toPoly 2 = X := by
    simp [toPoly, ofBits, Finset.sum_range_succ, Nat.testBit, Nat.shiftRight_eq_div_pow]
  have hsum : X ^ 12 + X ^ 3 + X + 1 + gf16Modulus * 1 = toPoly 0x8000 * toPoly 2 := by
    have htwo : (2 : (ZMod 2)[X]) = 0 := CharTwo.two_eq_zero
    rw [hhigh, hlow, gf16Modulus]
    linear_combination (X ^ 12 + X ^ 3 + X + 1) * htwo
  have hdegree : (X ^ 12 + X ^ 3 + X + 1 : (ZMod 2)[X]).degree < gf16Modulus.degree := by
    rw [degree_eq_natDegree gf16Modulus_monic.ne_zero, gf16Modulus_natDegree]
    have hle : (X ^ 12 + X ^ 3 + X + 1 : (ZMod 2)[X]).degree ≤ (12 : ℕ) := by
      compute_degree
      rfl
    exact hle.trans_lt (Nat.cast_lt.mpr (by decide))
  refine ⟨by decide, (div_modByMonic_unique 1 _ gf16Modulus_monic ⟨hsum, hdegree⟩).2, ?_, _, rfl, ?_⟩
  · rw [Ne, gf16Mul_reduced_iff]
    unfold Narrow
    decide
  · rw [Ne, gf16Mul_inv_eq_one_iff]
    decide

end QuicFuscate.Fec
