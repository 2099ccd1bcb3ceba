import Mathlib.Algebra.Field.Defs
import Mathlib.Algebra.Group.Hom.Defs
import Mathlib.Dynamics.PeriodicPts.Lemmas
import Mathlib.Logic.Function.Iterate
import Mathlib.Tactic.Conv

/-!
# Fields from a primitive orbit

Table-driven finite-field arithmetic multiplies by adding discrete logarithms.  The whole field
structure rests on one additive map, multiplication by the generator, whose orbit through the
unit visits every nonzero element.  This module builds the field from that data alone.
-/

namespace QuicFuscate.Framework

/-! ## Shift registers -/

/-- Multiply a polynomial of degree below `w` by the indeterminate, modulo `poly` of degree `w`. -/
def shiftReduce (w poly x : ℕ) : ℕ := if 2 ^ w ≤ x <<< 1 then (x <<< 1) ^^^ poly else x <<< 1

theorem shiftReduce_eq {w x : ℕ} (poly : ℕ) (hx : x < 2 ^ (w + 1)) :
    shiftReduce (w + 1) poly x = (x <<< 1) ^^^ (if x.testBit w then poly else 0) := by
  have hbit : x.testBit w = true ↔ 2 ^ (w + 1) ≤ x <<< 1 := by
    have hlt : x / 2 ^ w < 2 := Nat.div_lt_of_lt_mul (by rwa [pow_succ] at hx)
    have hpos : 1 ≤ x / 2 ^ w ↔ 2 ^ w ≤ x := Nat.one_le_div_iff (Nat.two_pow_pos w)
    rw [Nat.testBit_eq_decide_div_mod_eq, decide_eq_true_eq, Nat.shiftLeft_eq, pow_succ]
    generalize x / 2 ^ w = q at hlt hpos ⊢
    omega
  simp only [shiftReduce, hbit]
  split <;> simp

theorem shiftReduce_xor {w x y : ℕ} (poly : ℕ) (hx : x < 2 ^ (w + 1)) (hy : y < 2 ^ (w + 1)) :
    shiftReduce (w + 1) poly (x ^^^ y) =
      shiftReduce (w + 1) poly x ^^^ shiftReduce (w + 1) poly y := by
  rw [shiftReduce_eq poly hx, shiftReduce_eq poly hy,
    shiftReduce_eq poly (Nat.xor_lt_two_pow hx hy), Nat.shiftLeft_xor_distrib, Nat.testBit_xor]
  apply Nat.eq_of_testBit_eq
  intro i
  simp only [Nat.testBit_xor, apply_ite (Nat.testBit · i), Nat.zero_testBit]
  generalize (x <<< 1).testBit i = p
  generalize (y <<< 1).testBit i = q
  cases x.testBit w <;> cases y.testBit w <;> cases p <;> cases q <;>
    cases poly.testBit i <;> rfl

/-! ## Orbits -/

theorem minimalPeriod_eq {α : Type} {f : α → α} {x : α} {n : ℕ}
    (hper : f^[n] x = x) (hmin : ∀ p, p.Prime → p ∣ n → f^[n / p] x ≠ x) :
    Function.minimalPeriod f x = n := by
  obtain ⟨c, hc⟩ := Function.IsPeriodicPt.minimalPeriod_dvd (f := f) (x := x) hper
  by_cases hone : c = 1
  · rw [hc, hone, Nat.mul_one]
  obtain ⟨p, hp, d, rfl⟩ := Nat.exists_prime_and_dvd hone
  have hdiv : n / p = Function.minimalPeriod f x * d := by
    rw [hc, Nat.mul_left_comm, Nat.mul_div_cancel_left _ hp.pos]
  apply absurd _ (hmin p hp ⟨Function.minimalPeriod f x * d, by rw [hc, Nat.mul_left_comm]⟩)
  rw [hdiv]
  exact (Function.isPeriodicPt_minimalPeriod f x).mul_const d

theorem exists_iterate_eq {V : Type} [Fintype V] [Zero V] {f : V → V} {x : V} {n : ℕ}
    (hper : Function.minimalPeriod f x = n) (hcard : Fintype.card V = n + 1)
    (hne : ∀ i, f^[i] x ≠ 0) (v : V) (hv : v ≠ 0) : ∃ i < n, f^[i] x = v := by
  classical
  have hinj : Set.InjOn (fun i => f^[i] x) (Finset.range n) := by
    intro i hi j hj h
    have hi' := Finset.mem_range.mp hi
    have hj' := Finset.mem_range.mp hj
    exact Function.iterate_injOn_Iio_minimalPeriod (hper ▸ hi') (hper ▸ hj') h
  have hsub : (Finset.range n).image (fun i => f^[i] x) ⊆ Finset.univ.erase 0 := by
    intro w hw
    obtain ⟨i, -, rfl⟩ := Finset.mem_image.mp hw
    exact Finset.mem_erase.mpr ⟨hne i, Finset.mem_univ _⟩
  have heq : (Finset.range n).image (fun i => f^[i] x) = Finset.univ.erase 0 := by
    apply Finset.eq_of_subset_of_card_le hsub
    rw [Finset.card_image_of_injOn hinj, Finset.card_erase_of_mem (Finset.mem_univ _),
      Finset.card_univ, hcard, Finset.card_range, Nat.add_sub_cancel]
  have hmem : v ∈ (Finset.range n).image (fun i => f^[i] x) := by
    rw [heq]
    exact Finset.mem_erase.mpr ⟨hv, Finset.mem_univ _⟩
  obtain ⟨i, hi, rfl⟩ := Finset.mem_image.mp hmem
  exact ⟨i, Finset.mem_range.mp hi, rfl⟩

/-- An additive map `shift` whose orbit through `unit` is all of the nonzero elements, together
with the discrete logarithm that locates an element on the orbit. -/
structure PrimitiveOrbit (V : Type) [AddCommGroup V] where
  shift : V →+ V
  unit : V
  log : V → ℕ
  period : ℕ
  unit_ne_zero : unit ≠ 0
  period_pos : 0 < period
  iterate_period : shift^[period] unit = unit
  log_le : ∀ v, log v ≤ period
  iterate_log : ∀ v, v ≠ 0 → shift^[log v] unit = v

namespace PrimitiveOrbit

variable {V : Type} [AddCommGroup V] (O : PrimitiveOrbit V)

private theorem iterate_zero_vec (n : ℕ) : O.shift^[n] 0 = 0 :=
  iterate_map_zero O.shift n

theorem iterate_period_mul (n : ℕ) : O.shift^[O.period * n] O.unit = O.unit := by
  rw [Function.iterate_mul]
  exact Function.iterate_fixed O.iterate_period n

theorem iterate_unit_ne_zero (n : ℕ) : O.shift^[n] O.unit ≠ 0 := by
  intro h
  have hle : n ≤ O.period * n := Nat.le_mul_of_pos_left n O.period_pos
  have hsplit : O.shift^[O.period * n - n + n] O.unit = O.unit := by
    rw [Nat.sub_add_cancel hle]
    exact O.iterate_period_mul n
  rw [Function.iterate_add_apply, h, O.iterate_zero_vec] at hsplit
  exact O.unit_ne_zero hsplit.symm

theorem iterate_congr {m n : ℕ} (h : O.shift^[m] O.unit = O.shift^[n] O.unit) (v : V) :
    O.shift^[m] v = O.shift^[n] v := by
  by_cases hv : v = 0
  · rw [hv, O.iterate_zero_vec, O.iterate_zero_vec]
  · rw [← O.iterate_log v hv, ← Function.iterate_add_apply, ← Function.iterate_add_apply,
      Nat.add_comm m, Nat.add_comm n, Function.iterate_add_apply, Function.iterate_add_apply, h]

section Operations

variable [DecidableEq V]

def mul (a b : V) : V := if a = 0 then 0 else O.shift^[O.log a] b

def inv (a : V) : V := if a = 0 then 0 else O.shift^[O.period - O.log a] O.unit

@[simp] theorem zero_mul (b : V) : O.mul 0 b = 0 := by simp [mul]

theorem mul_of_ne {a : V} (ha : a ≠ 0) (b : V) : O.mul a b = O.shift^[O.log a] b := by
  simp [mul, ha]

@[simp] theorem mul_zero (a : V) : O.mul a 0 = 0 := by
  unfold mul
  split
  · rfl
  · exact O.iterate_zero_vec _

theorem mul_comm (a b : V) : O.mul a b = O.mul b a := by
  by_cases ha : a = 0
  · rw [ha, O.zero_mul, O.mul_zero]
  by_cases hb : b = 0
  · rw [hb, O.zero_mul, O.mul_zero]
  rw [O.mul_of_ne ha, O.mul_of_ne hb]
  conv_lhs => rw [← O.iterate_log b hb]
  conv_rhs => rw [← O.iterate_log a ha]
  rw [← Function.iterate_add_apply, ← Function.iterate_add_apply, Nat.add_comm]

theorem mul_assoc (a b c : V) : O.mul (O.mul a b) c = O.mul a (O.mul b c) := by
  by_cases ha : a = 0
  · simp [ha]
  by_cases hb : b = 0
  · simp [hb]
  have hab : O.mul a b = O.shift^[O.log a + O.log b] O.unit := by
    rw [O.mul_of_ne ha, Function.iterate_add_apply, O.iterate_log b hb]
  have hne : O.mul a b ≠ 0 := hab ▸ O.iterate_unit_ne_zero _
  have hlog : O.shift^[O.log (O.mul a b)] O.unit = O.shift^[O.log a + O.log b] O.unit :=
    (O.iterate_log _ hne).trans hab
  rw [O.mul_of_ne hne, O.iterate_congr hlog, O.mul_of_ne ha, O.mul_of_ne hb,
    Function.iterate_add_apply]

theorem one_mul (a : V) : O.mul O.unit a = a := by
  rw [O.mul_of_ne O.unit_ne_zero]
  exact O.iterate_congr (n := 0) (O.iterate_log _ O.unit_ne_zero) a

theorem left_distrib (a b c : V) : O.mul a (b + c) = O.mul a b + O.mul a c := by
  by_cases ha : a = 0
  · simp [ha]
  · simp only [O.mul_of_ne ha]
    exact iterate_map_add O.shift _ b c

theorem mul_inv_cancel {a : V} (ha : a ≠ 0) : O.mul a (O.inv a) = O.unit := by
  rw [O.mul_of_ne ha, inv, if_neg ha, ← Function.iterate_add_apply,
    Nat.add_sub_cancel' (O.log_le a), O.iterate_period]

abbrev field : Field V where
  __ := ‹AddCommGroup V›
  mul := O.mul
  one := O.unit
  inv := O.inv
  left_distrib := O.left_distrib
  right_distrib a b c := by
    change O.mul (a + b) c = O.mul a c + O.mul b c
    rw [O.mul_comm, O.left_distrib, O.mul_comm c a, O.mul_comm c b]
  zero_mul := O.zero_mul
  mul_zero := O.mul_zero
  mul_assoc := O.mul_assoc
  one_mul := O.one_mul
  mul_one a := (O.mul_comm a O.unit).trans (O.one_mul a)
  mul_comm := O.mul_comm
  exists_pair_ne := ⟨0, O.unit, O.unit_ne_zero.symm⟩
  mul_inv_cancel _ ha := O.mul_inv_cancel ha
  inv_zero := by
    change O.inv 0 = 0
    simp [inv]
  nnqsmul := _
  nnqsmul_def _ _ := rfl
  qsmul := _
  qsmul_def _ _ := rfl

end Operations

end PrimitiveOrbit

end QuicFuscate.Framework
