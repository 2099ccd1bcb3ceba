import QuicFuscate.Fec.GfTables
import QuicFuscate.Framework.PrimitiveOrbit
import Mathlib.Algebra.BigOperators.Fin
import Mathlib.Tactic.NormNum.Prime

/-!
# The table arithmetic is the field GF(2^8)

Multiplication by the generator is additive, its powers visit every nonzero byte, and the table
loop stores those powers and their logarithms.  Hence table multiplication and table inversion
are the operations of a field with 256 elements whose addition is XOR.
-/

namespace QuicFuscate.Fec

open Framework

/-! ## The generator -/

private theorem nextPower_lt : ∀ x < 256, nextPower x < 256 := by decide +kernel

private theorem nextPower_xor {x y : ℕ} (hx : x < 256) (hy : y < 256) :
    nextPower (x ^^^ y) = nextPower x ^^^ nextPower y :=
  shiftReduce_xor irreduciblePoly (w := 7) hx hy

/-- The powers of the generator. -/
def power (i : ℕ) : ℕ := nextPower^[i] 1

private theorem power_succ (i : ℕ) : power (i + 1) = nextPower (power i) :=
  Function.iterate_succ_apply' nextPower i 1

private theorem power_lt (i : ℕ) : power i < 256 := by
  induction i with
  | zero => decide
  | succ i ih => rw [power_succ]; exact nextPower_lt _ ih

private theorem power_period : power 255 = 1 := by decide +kernel

private theorem minimalPeriod_nextPower : Function.minimalPeriod nextPower 1 = 255 := by
  apply minimalPeriod_eq power_period
  intro p hp hdvd
  have hfactor : p ∣ 3 * 5 * 17 := hdvd
  rw [hp.dvd_mul, hp.dvd_mul, Nat.prime_dvd_prime_iff_eq hp (by norm_num),
    Nat.prime_dvd_prime_iff_eq hp (by norm_num), Nat.prime_dvd_prime_iff_eq hp (by norm_num)]
    at hfactor
  rcases hfactor with (rfl | rfl) | rfl <;> decide +kernel

private theorem power_injOn {i j : ℕ} (hi : i < 255) (hj : j < 255) (h : power i = power j) : i = j :=
  Function.iterate_injOn_Iio_minimalPeriod (by simpa [minimalPeriod_nextPower] using hi)
    (by simpa [minimalPeriod_nextPower] using hj) h

private theorem power_add_period (i : ℕ) : power (i + 255) = power i := by
  rw [power, Function.iterate_add_apply]
  exact congrArg nextPower^[i] power_period

/-! ## The tables -/

private theorem initStep_foldl (n : ℕ) (hn : n ≤ 255) :
    let s := (List.range n).foldl initStep (⟨fun _ => 0, fun _ => 0⟩, 1)
    s.2 = power n ∧ (∀ i < n, s.1.exp i = UInt8.ofNat (power i) ∧
      s.1.exp (i + 255) = UInt8.ofNat (power i) ∧ s.1.log (power i) = UInt8.ofNat i) := by
  induction n with
  | zero => exact ⟨rfl, fun i hi => absurd hi (Nat.not_lt_zero i)⟩
  | succ n ih =>
      obtain ⟨hx, htab⟩ := ih (by omega)
      rw [List.range_succ, List.foldl_append]
      simp only [List.foldl_cons, List.foldl_nil, initStep]
      refine ⟨by rw [hx, power_succ], fun i hi => ?_⟩
      rw [hx]
      rcases Nat.lt_or_eq_of_le (Nat.lt_succ_iff.mp hi) with hlt | rfl
      · obtain ⟨h1, h2, h3⟩ := htab i hlt
        have hpow : power i ≠ power n := fun h => by
          have := power_injOn (by omega) (by omega) h
          omega
        rw [Function.update_of_ne (by omega), Function.update_of_ne (by omega),
          Function.update_of_ne (by omega), Function.update_of_ne (by omega),
          Function.update_of_ne hpow]
        exact ⟨h1, h2, h3⟩
      · rw [Function.update_of_ne (by omega), Function.update_self, Function.update_self,
          Function.update_self]
        exact ⟨rfl, rfl, rfl⟩

private theorem expTable_eq {i : ℕ} (hi : i < 510) : expTable i = UInt8.ofNat (power i) := by
  obtain ⟨-, htab⟩ := initStep_foldl 255 le_rfl
  by_cases h : i < 255
  · exact (htab i h).1
  · obtain ⟨j, rfl⟩ := Nat.exists_eq_add_of_le' (not_lt.mp h)
    rw [power_add_period]
    exact (htab j (by omega)).2.1

private theorem logTable_power {i : ℕ} (hi : i < 255) :
    logTable (UInt8.ofNat (power i)) = UInt8.ofNat i := by
  obtain ⟨-, htab⟩ := initStep_foldl 255 le_rfl
  rw [← (htab i hi).2.2, logTable, UInt8.toNat_ofNat_of_lt' (power_lt i)]
  rfl

/-! ## The field -/

/-- A byte read as an element of GF(2^8). -/
structure GF256 where
  byte : UInt8
  deriving DecidableEq

namespace GF256

private theorem ext_byte {a b : GF256} (h : a.byte = b.byte) : a = b := by
  cases a
  cases b
  simp_all

instance : Zero GF256 := ⟨⟨0⟩⟩

instance : Add GF256 := ⟨fun a b => ⟨a.byte ^^^ b.byte⟩⟩

instance : Neg GF256 := ⟨fun a => a⟩

instance : AddCommGroup GF256 where
  add_assoc a b c := congrArg mk (UInt8.xor_assoc a.byte b.byte c.byte)
  zero_add a := congrArg mk (UInt8.zero_xor)
  add_zero a := congrArg mk (UInt8.xor_zero)
  neg_add_cancel a := congrArg mk (UInt8.xor_self)
  add_comm a b := congrArg mk (UInt8.xor_comm a.byte b.byte)
  nsmul := nsmulRec
  zsmul := zsmulRec

theorem mk_xor (a b : UInt8) : mk (a ^^^ b) = mk a + mk b := rfl

theorem mk_zero : mk 0 = 0 := rfl

def shift : GF256 →+ GF256 where
  toFun a := ⟨UInt8.ofNat (nextPower a.byte.toNat)⟩
  map_zero' := by decide +kernel
  map_add' a b := by
    change mk _ = mk _
    congr 1
    apply UInt8.toNat_inj.mp
    have ha := a.byte.toNat_lt
    have hb := b.byte.toNat_lt
    change (UInt8.ofNat (nextPower (a.byte ^^^ b.byte).toNat)).toNat = _
    rw [UInt8.toNat_xor, UInt8.toNat_xor, UInt8.toNat_ofNat_of_lt' (nextPower_lt _ ha),
      UInt8.toNat_ofNat_of_lt' (nextPower_lt _ hb), nextPower_xor ha hb,
      UInt8.toNat_ofNat_of_lt' (Nat.xor_lt_two_pow (n := 8) (nextPower_lt _ ha)
        (nextPower_lt _ hb))]

theorem shift_iterate (i : ℕ) : shift^[i] ⟨1⟩ = ⟨UInt8.ofNat (power i)⟩ := by
  induction i with
  | zero => rfl
  | succ i ih =>
      rw [Function.iterate_succ_apply', ih, power_succ]
      change mk (UInt8.ofNat (nextPower (UInt8.ofNat (power i)).toNat)) = _
      rw [UInt8.toNat_ofNat_of_lt' (power_lt i)]

instance : Fintype GF256 :=
  Fintype.ofEquiv (Fin 256)
    { toFun := fun i => ⟨UInt8.ofFin i⟩
      invFun := fun a => a.byte.toFin
      left_inv := fun _ => rfl
      right_inv := fun _ => rfl }

theorem card_eq : Fintype.card GF256 = 256 := by
  rw [Fintype.ofEquiv_card, Fintype.card_fin]

private theorem power_ne_zero (i : ℕ) : power i ≠ 0 := by
  intro h
  have hfix : ∀ j, power (i + j) = 0 := by
    intro j
    induction j with
    | zero => exact h
    | succ j ih => rw [← Nat.add_assoc, power_succ, ih]; decide
  have hone : ∀ m, power (255 * m) = 1 := by
    intro m
    induction m with
    | zero => rfl
    | succ m ih => rw [Nat.mul_succ, power_add_period, ih]
  have hbad := hfix (255 * i - i)
  rw [Nat.add_sub_cancel' (by omega), hone i] at hbad
  exact one_ne_zero hbad

private theorem power_of_shift_iterate {i j : ℕ} (h : shift^[i] ⟨1⟩ = ⟨UInt8.ofNat j⟩)
    (hj : j < 256) : power i = j := by
  rw [shift_iterate] at h
  have hval := congrArg (fun g : GF256 => g.byte.toNat) h
  simpa only [UInt8.toNat_ofNat_of_lt' (power_lt _), UInt8.toNat_ofNat_of_lt' hj] using hval

theorem minimalPeriod_shift : Function.minimalPeriod shift ⟨1⟩ = 255 := by
  apply minimalPeriod_eq
  · rw [shift_iterate, power_period]
    rfl
  · intro p hp hdvd h
    have hle := Nat.le_of_dvd (by omega) hdvd
    have hdiv : 255 / p = 0 := power_injOn (i := 255 / p) (j := 0)
      (Nat.div_lt_self (by omega) hp.one_lt) (by omega) (power_of_shift_iterate h (power_lt 0))
    have := Nat.div_pos hle hp.pos
    omega

private theorem exists_power_eq {a : UInt8} (ha : a ≠ 0) : ∃ i < 255, UInt8.ofNat (power i) = a := by
  obtain ⟨i, hi, h⟩ := exists_iterate_eq minimalPeriod_shift card_eq
    (fun i h => power_ne_zero i (power_of_shift_iterate h (by omega))) ⟨a⟩
    (fun h => ha (congrArg byte h))
  rw [shift_iterate] at h
  exact ⟨i, hi, congrArg byte h⟩

private theorem log_lt (a : UInt8) : a ≠ 0 → (logTable a).toNat < 255 := by
  intro ha
  obtain ⟨i, hi, rfl⟩ := exists_power_eq ha
  rw [logTable_power hi, UInt8.toNat_ofNat_of_lt' (hi.trans (by decide))]
  exact hi

private theorem power_log {a : UInt8} (ha : a ≠ 0) : UInt8.ofNat (power (logTable a).toNat) = a := by
  obtain ⟨i, hi, rfl⟩ := exists_power_eq ha
  rw [logTable_power hi, UInt8.toNat_ofNat_of_lt' (hi.trans (by decide))]

/-- The table loop certifies the orbit of the generator. -/
def orbit : PrimitiveOrbit GF256 where
  shift := shift
  unit := ⟨1⟩
  log a := (logTable a.byte).toNat
  period := 255
  unit_ne_zero := by decide
  period_pos := by decide
  iterate_period := by
    rw [shift_iterate, power_period]
    rfl
  log_le a := Nat.lt_succ_iff.mp (logTable a.byte).toNat_lt
  iterate_log a ha := by
    rw [shift_iterate, power_log fun h => ha (ext_byte h)]

instance : Field GF256 := orbit.field

theorem mk_one : mk 1 = 1 := rfl

theorem mk_gfMulTable (a b : UInt8) : mk (gfMulTable a b) = mk a * mk b := by
  change _ = orbit.mul (mk a) (mk b)
  unfold gfMulTable
  by_cases ha : a = 0
  · rw [if_pos (Or.inl ha), ha]
    exact (orbit.zero_mul (mk b)).symm
  by_cases hb : b = 0
  · rw [if_pos (Or.inr hb), hb]
    exact (orbit.mul_zero (mk a)).symm
  have hlt := log_lt a ha
  have hlt' := log_lt b hb
  rw [if_neg (by simp [ha, hb]), orbit.mul_of_ne (fun h => ha (congrArg byte h)),
    expTable_eq (by omega)]
  change _ = shift^[(logTable a).toNat] (mk b)
  conv_rhs => rw [← power_log hb, ← shift_iterate, ← Function.iterate_add_apply]
  rw [shift_iterate]

theorem gfMulTable_one (a : UInt8) : gfMulTable a 1 = a := by
  have hmul := mk_gfMulTable a 1
  rw [mk_one, mul_one] at hmul
  exact congrArg byte hmul

theorem gfInv_of_ne {a : UInt8} (ha : a ≠ 0) : ∃ c, gfInv a = .ok c ∧ mk c = (mk a)⁻¹ := by
  refine ⟨_, by rw [gfInv, if_neg ha], ?_⟩
  change _ = orbit.inv (mk a)
  have hne : mk a ≠ 0 := fun h => ha (congrArg byte h)
  rw [PrimitiveOrbit.inv, if_neg hne, expTable_eq (by omega), ← shift_iterate]
  rfl

theorem sub_eq_add (a b : GF256) : a - b = a + b := sub_eq_add_neg a b

theorem mk_eq_zero {a : UInt8} : mk a = 0 ↔ a = 0 :=
  ⟨fun h => congrArg byte h, fun h => congrArg mk h⟩

theorem mk_injective : Function.Injective mk := fun _ _ h => congrArg byte h

theorem mk_foldl_xor (f : ℕ → UInt8) (n : ℕ) :
    mk ((List.range n).foldl (fun acc i => acc ^^^ f i) 0) = ∑ i : Fin n, mk (f i) := by
  induction n with
  | zero => simp [mk_zero]
  | succ n ih =>
      rw [List.range_succ, List.foldl_append, List.foldl_cons, List.foldl_nil, mk_xor, ih,
        Fin.sum_univ_castSucc]
      rfl

end GF256

end QuicFuscate.Fec
