import QuicFuscate.Fec.GfTables
import QuicFuscate.Framework.PrimitiveOrbit
import Mathlib.Algebra.BigOperators.Fin
import Mathlib.FieldTheory.Finite.Basic
import Mathlib.Tactic.NormNum.Prime

/-!
# The field GF(2^16) of the polynomial `0x1100b`

The powers of the indeterminate modulo `0x1100b` visit every nonzero word.  Their period is
checked by repeated squaring: squaring is the additive map that doubles exponents.  The exact
multiplication and inversion of the field are given as computable operations on words.
-/

namespace QuicFuscate.Fec

open Framework

/-- A word read as an element of GF(2^16). -/
structure GF65536 where
  word : UInt16
  deriving DecidableEq

namespace GF65536

instance : Zero GF65536 := ⟨⟨0⟩⟩

instance : Add GF65536 := ⟨fun a b => ⟨a.word ^^^ b.word⟩⟩

instance : Neg GF65536 := ⟨fun a => a⟩

instance : AddCommGroup GF65536 where
  add_assoc a b c := congrArg mk (UInt16.xor_assoc a.word b.word c.word)
  zero_add a := congrArg mk (UInt16.zero_xor)
  add_zero a := congrArg mk (UInt16.xor_zero)
  neg_add_cancel a := congrArg mk (UInt16.xor_self)
  add_comm a b := congrArg mk (UInt16.xor_comm a.word b.word)
  nsmul := nsmulRec
  zsmul := zsmulRec

theorem mk_xor (a b : UInt16) : mk (a ^^^ b) = mk a + mk b := rfl

private theorem add_self (a : GF65536) : a + a = 0 := congrArg mk (UInt16.xor_self)

def basis (i : ℕ) : GF65536 := ⟨UInt16.ofNat (2 ^ i)⟩

private theorem addHom_ext {f g : GF65536 →+ GF65536} (h : ∀ i < 16, f (basis i) = g (basis i)) :
    f = g := by
  have hlow : ∀ n ≤ 16, ∀ x < 2 ^ n, f ⟨UInt16.ofNat x⟩ = g ⟨UInt16.ofNat x⟩ := by
    intro n
    induction n with
    | zero =>
        intro _ x hx
        obtain rfl : x = 0 := by omega
        exact f.map_zero.trans g.map_zero.symm
    | succ n ih =>
        intro hn x hx
        by_cases hbit : x.testBit n
        · have hrest : x ^^^ 2 ^ n < 2 ^ n := by
            apply Nat.lt_pow_two_of_testBit
            intro i hi
            rw [Nat.testBit_xor, Nat.testBit_two_pow]
            rcases Nat.lt_or_eq_of_le hi with hlt | rfl
            · have hxi := Nat.testBit_lt_two_pow (hx.trans_le (Nat.pow_le_pow_right two_pos hlt))
              simp [hxi, hlt.ne]
            · simp [hbit]
          have hsplit : (⟨UInt16.ofNat x⟩ : GF65536) =
              ⟨UInt16.ofNat (x ^^^ 2 ^ n)⟩ + basis n := by
            rw [basis, ← mk_xor, ← UInt16.ofNat_xor, Nat.xor_assoc, Nat.xor_self, Nat.xor_zero]
          rw [hsplit, f.map_add, g.map_add, ih (by omega) _ hrest, h n (by omega)]
        · apply ih (by omega)
          apply Nat.lt_pow_two_of_testBit
          intro i hi
          rcases Nat.lt_or_eq_of_le hi with hlt | rfl
          · exact Nat.testBit_lt_two_pow (hx.trans_le (Nat.pow_le_pow_right two_pos hlt))
          · simpa using hbit
  ext a
  have ha := hlow 16 le_rfl a.word.toNat a.word.toNat_lt
  rw [UInt16.ofNat_toNat] at ha
  exact ha

def shift : GF65536 →+ GF65536 where
  toFun a := ⟨UInt16.ofNat (shiftReduce 16 gf16Poly a.word.toNat)⟩
  map_zero' := rfl
  map_add' a b := by
    change mk (UInt16.ofNat (shiftReduce 16 gf16Poly (a.word ^^^ b.word).toNat)) = mk (_ ^^^ _)
    rw [UInt16.toNat_xor, shiftReduce_xor gf16Poly (w := 15) a.word.toNat_lt b.word.toNat_lt,
      UInt16.ofNat_xor]

/-! ## Linear combinations -/

/-- The sum of those of `e 0, …, e (n - 1)` that the bits of a word select. -/
def select (e : ℕ → GF65536) (n : ℕ) (a : GF65536) : GF65536 :=
  (List.range n).foldl (fun acc i => if a.word.toNat.testBit i then acc + e i else acc) 0

private theorem select_succ (e : ℕ → GF65536) (n : ℕ) (a : GF65536) :
    select e (n + 1) a =
      if a.word.toNat.testBit n then select e n a + e n else select e n a := by
  rw [select, List.range_succ, List.foldl_append]
  rfl

private theorem select_add (e : ℕ → GF65536) (n : ℕ) (a b : GF65536) :
    select e n (a + b) = select e n a + select e n b := by
  induction n with
  | zero => exact (add_zero 0).symm
  | succ n ih =>
      have hbit : (a + b).word.toNat.testBit n =
          Bool.xor (a.word.toNat.testBit n) (b.word.toNat.testBit n) := by
        change (a.word ^^^ b.word).toNat.testBit n = _
        rw [UInt16.toNat_xor, Nat.testBit_xor]
      rw [select_succ, select_succ, select_succ, hbit, ih]
      cases a.word.toNat.testBit n <;> cases b.word.toNat.testBit n
      · rfl
      · exact add_assoc _ _ _
      · exact add_right_comm _ _ _
      · have hcancel : select e n a + e n + (select e n b + e n) =
            select e n a + select e n b := by
          rw [add_add_add_comm, add_self, add_zero]
        exact hcancel.symm

def ofBasis (e : ℕ → GF65536) : GF65536 →+ GF65536 where
  toFun := select e 16
  map_zero' := rfl
  map_add' := select_add e 16

private theorem testBit_basis : ∀ i < 16, ∀ j < 16,
    (basis i).word.toNat.testBit j = decide (i = j) := by
  decide +kernel

private theorem ofBasis_basis (e : ℕ → GF65536) {i : ℕ} (hi : i < 16) : ofBasis e (basis i) = e i := by
  have hsel : ∀ n ≤ 16, select e n (basis i) = if i < n then e i else 0 := by
    intro n
    induction n with
    | zero => intro _; rfl
    | succ n ih =>
        intro hn
        rw [select_succ, testBit_basis i hi n (by omega), ih (by omega)]
        by_cases hin : i = n
        · subst hin
          simp
        · have hiff : i < n + 1 ↔ i < n := by omega
          simp [hin, hiff]
  exact (hsel 16 le_rfl).trans (if_pos hi)

/-! ## The period of the indeterminate -/

def square : GF65536 →+ GF65536 := ofBasis fun i => shift^[2 * i] ⟨1⟩

private theorem square_comp_shift : square.comp shift = (shift.comp shift).comp square :=
  addHom_ext (by decide +kernel)

private theorem square_iterate (n : ℕ) : square (shift^[n] ⟨1⟩) = shift^[2 * n] ⟨1⟩ := by
  induction n with
  | zero => decide +kernel
  | succ n ih =>
      have hstep := DFunLike.congr_fun square_comp_shift (shift^[n] ⟨1⟩)
      simp only [AddMonoidHom.comp_apply] at hstep
      rw [Function.iterate_succ_apply', hstep, ih, Nat.mul_succ, Function.iterate_succ_apply',
        Function.iterate_succ_apply']

def powerOf (bits : List Bool) : GF65536 :=
  bits.foldl (fun v b => if b then shift (square v) else square v) ⟨1⟩

private theorem powerOf_eq (bits : List Bool) :
    powerOf bits = shift^[bits.foldl (fun n b => 2 * n + b.toNat) 0] ⟨1⟩ := by
  induction bits using List.reverseRecOn with
  | nil => rfl
  | append_singleton bits b ih =>
      rw [powerOf, List.foldl_append, List.foldl_append, List.foldl_cons, List.foldl_nil,
        List.foldl_cons, List.foldl_nil]
      change (if b then shift (square (powerOf bits)) else square (powerOf bits)) = _
      rw [ih, square_iterate]
      cases b with
      | false => rfl
      | true =>
          rw [if_pos rfl, Bool.toNat_true, Function.iterate_succ_apply']

def digits16 (n : ℕ) : List Bool := (List.range 16).reverse.map n.testBit

private theorem power_checks : powerOf (digits16 65535) = ⟨1⟩ ∧
    ∀ p ∈ [3, 5, 17, 257], powerOf (digits16 (65535 / p)) ≠ ⟨1⟩ ∧
      (digits16 (65535 / p)).foldl (fun n b => 2 * n + b.toNat) 0 = 65535 / p := by
  decide +kernel

theorem iterate_period : shift^[65535] ⟨1⟩ = ⟨1⟩ :=
  (powerOf_eq (digits16 65535)).symm.trans power_checks.1

theorem minimalPeriod_shift : Function.minimalPeriod shift ⟨1⟩ = 65535 := by
  apply minimalPeriod_eq iterate_period
  intro p hp hdvd h
  have hfactor : p ∣ 3 * 5 * 17 * 257 := hdvd
  have hmem : p ∈ [3, 5, 17, 257] := by
    rw [hp.dvd_mul, hp.dvd_mul, hp.dvd_mul, Nat.prime_dvd_prime_iff_eq hp (by norm_num),
      Nat.prime_dvd_prime_iff_eq hp (by norm_num), Nat.prime_dvd_prime_iff_eq hp (by norm_num),
      Nat.prime_dvd_prime_iff_eq hp (by norm_num)] at hfactor
    simpa [or_assoc] using hfactor
  obtain ⟨hne, hvalue⟩ := power_checks.2 p hmem
  rw [powerOf_eq, hvalue] at hne
  exact hne h

/-! ## The field -/

instance : Fintype GF65536 :=
  Fintype.ofEquiv (Fin 65536)
    { toFun := fun i => ⟨UInt16.ofFin i⟩
      invFun := fun a => a.word.toFin
      left_inv := fun _ => rfl
      right_inv := fun _ => rfl }

theorem card_eq : Fintype.card GF65536 = 65536 := by
  rw [Fintype.ofEquiv_card, Fintype.card_fin]

private theorem iterate_ne_zero (i : ℕ) : shift^[i] ⟨1⟩ ≠ 0 := by
  intro h
  have hmul : shift^[65535 * i] ⟨1⟩ = ⟨1⟩ := by
    rw [Function.iterate_mul]
    exact Function.iterate_fixed iterate_period i
  rw [show 65535 * i = (65535 * i - i) + i by omega, Function.iterate_add_apply, h,
    iterate_map_zero] at hmul
  exact absurd hmul (by decide)

private theorem exists_iterate (a : GF65536) (ha : a ≠ 0) : ∃ i < 65535, shift^[i] ⟨1⟩ = a :=
  exists_iterate_eq minimalPeriod_shift card_eq iterate_ne_zero a ha

open Classical in
/-- The powers of the indeterminate visit every nonzero word. -/
noncomputable def orbit : PrimitiveOrbit GF65536 where
  shift := shift
  unit := ⟨1⟩
  log a := if h : a = 0 then 0 else (exists_iterate a h).choose
  period := 65535
  unit_ne_zero := by decide
  period_pos := by decide
  iterate_period := iterate_period
  log_le a := by
    by_cases ha : a = 0
    · rw [dif_pos ha]
      exact Nat.zero_le _
    · rw [dif_neg ha]
      exact (exists_iterate a ha).choose_spec.1.le
  iterate_log a ha := by
    rw [dif_neg ha]
    exact (exists_iterate a ha).choose_spec.2

noncomputable instance : Field GF65536 := orbit.field

private theorem mul_iterate (i : ℕ) (a : GF65536) : shift^[i] ⟨1⟩ * a = shift^[i] a := by
  change orbit.mul (orbit.shift^[i] orbit.unit) a = _
  rw [orbit.mul_of_ne (orbit.iterate_unit_ne_zero i),
    orbit.iterate_congr (orbit.iterate_log _ (orbit.iterate_unit_ne_zero i))]
  rfl

private theorem basis_eq_iterate : ∀ i < 16, basis i = shift^[i] ⟨1⟩ := by
  decide +kernel

/-! ## Computable operations -/

def exactMul (a b : UInt16) : UInt16 := (ofBasis (fun i => shift^[i] ⟨b⟩) ⟨a⟩).word

theorem mk_exactMul (a b : UInt16) : mk (exactMul a b) = mk a * mk b := by
  have hmaps : ofBasis (fun i => shift^[i] ⟨b⟩) = AddMonoidHom.mulRight (mk b) := by
    apply addHom_ext
    intro i hi
    rw [ofBasis_basis _ hi, AddMonoidHom.mulRight_apply, basis_eq_iterate i hi, mul_iterate]
  exact DFunLike.congr_fun hmaps (mk a)

/-- `x ^ (2 ^ 16 - 2)`. -/
def exactInv (x : UInt16) : UInt16 :=
  (fun y => let z := exactMul x y; exactMul z z)^[15] 1

theorem mk_exactInv {x : UInt16} (hx : x ≠ 0) : mk (exactInv x) = (mk x)⁻¹ := by
  have hpow : ∀ n, mk ((fun y => let z := exactMul x y; exactMul z z)^[n] 1) =
      mk x ^ (2 ^ (n + 1) - 2) := by
    intro n
    induction n with
    | zero => rfl
    | succ n ih =>
        have hle : 2 ≤ 2 ^ (n + 1) := Nat.pow_le_pow_right (n := 2) two_pos (Nat.le_add_left 1 n)
        rw [Function.iterate_succ_apply']
        simp only [mk_exactMul, ih, ← pow_succ', ← pow_add]
        congr 1
        rw [pow_succ 2 (n + 1)]
        omega
  have hne : mk x ≠ 0 := fun h => hx (congrArg word h)
  have hone := FiniteField.pow_card_sub_one_eq_one (mk x) hne
  rw [card_eq] at hone
  rw [exactInv, hpow 15]
  apply eq_inv_of_mul_eq_one_left
  rw [← pow_succ]
  exact hone

end GF65536

end QuicFuscate.Fec
