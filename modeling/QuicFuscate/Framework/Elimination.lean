import Mathlib.LinearAlgebra.Matrix.Nondegenerate
import Mathlib.LinearAlgebra.Matrix.ToLinearEquiv
import Mathlib.LinearAlgebra.Matrix.NonsingularInverse

/-!
# Gauss-Jordan elimination with optional right-hand sides

Rows of a square system carry a coefficient vector and a payload that may be absent.  An
elimination step swaps the first usable row into place, normalises it and clears its column in
every other row; a payload takes part in a row operation only when both rows carry one.  The
coefficient side is ordinary elimination: it succeeds exactly on linearly independent rows.  The
payload side follows the coefficient side only as long as no row without a payload is changed.
-/

namespace QuicFuscate.Framework

variable {K V : Type} [Field K] [AddCommGroup V] [Module K V] {k : ℕ}

/-- A vector of unknowns satisfies every equation of the system. -/
def Solves (A : Fin k → Fin k → K) (b x : Fin k → V) : Prop :=
  ∀ r, ∑ c, A r c • x c = b r

def pivotCoeff (A : Fin k → Fin k → K) (i r t c : Fin k) : K :=
  if t = i then (A r i)⁻¹ * A r c
  else A (Equiv.swap i r t) c - A (Equiv.swap i r t) i * ((A r i)⁻¹ * A r c)

def pivotRhs (A : Fin k → Fin k → K) (b : Fin k → V) (i r t : Fin k) : V :=
  if t = i then (A r i)⁻¹ • b r
  else b (Equiv.swap i r t) - A (Equiv.swap i r t) i • (A r i)⁻¹ • b r

theorem pivotCoeff_pivot (A : Fin k → Fin k → K) {i r : Fin k} (h : A r i ≠ 0) (t : Fin k) :
    pivotCoeff A i r t i = if t = i then 1 else 0 := by
  by_cases ht : t = i <;> simp [pivotCoeff, ht, h]

private theorem pivot_row_sum (A : Fin k → Fin k → K) (x : Fin k → V) (i r : Fin k) :
    ∑ c, pivotCoeff A i r i c • x c = (A r i)⁻¹ • ∑ c, A r c • x c := by
  simp [pivotCoeff, Finset.smul_sum, mul_smul]

private theorem cleared_row_sum (A : Fin k → Fin k → K) (x : Fin k → V) {i r t : Fin k}
    (ht : t ≠ i) :
    ∑ c, pivotCoeff A i r t c • x c = ∑ c, A (Equiv.swap i r t) c • x c -
      A (Equiv.swap i r t) i • (A r i)⁻¹ • ∑ c, A r c • x c := by
  simp [pivotCoeff, ht, Finset.smul_sum, mul_smul, sub_smul, Finset.sum_sub_distrib]

theorem solves_pivot_iff (A : Fin k → Fin k → K) (b x : Fin k → V) {i r : Fin k}
    (h : A r i ≠ 0) : Solves (pivotCoeff A i r) (pivotRhs A b i r) x ↔ Solves A b x := by
  constructor
  · intro hs
    have hr : ∑ c, A r c • x c = b r := by
      have hi := hs i
      rw [pivot_row_sum, pivotRhs, if_pos rfl] at hi
      exact smul_right_injective V (inv_ne_zero h) hi
    intro t
    by_cases ht : Equiv.swap i r t = i
    · have htr : t = r := by
        rw [← Equiv.swap_apply_self i r t, ht, Equiv.swap_apply_left]
      rw [htr, hr]
    · have hst := hs (Equiv.swap i r t)
      rw [cleared_row_sum A x ht, pivotRhs, if_neg ht, hr, Equiv.swap_apply_self] at hst
      exact sub_left_injective hst
  · intro hs t
    by_cases ht : t = i
    · rw [ht, pivot_row_sum, hs r, pivotRhs, if_pos rfl]
    · rw [cleared_row_sum A x ht, hs r, hs, pivotRhs, if_neg ht]

/-- A square system under elimination.  `origin` remembers which input row stands at a position. -/
structure LinearSystem (k : ℕ) (K V : Type) where
  coeff : Fin k → Fin k → K
  payload : Fin k → Option V
  origin : Equiv.Perm (Fin k)

namespace LinearSystem

/-- A payload row operation: nothing happens unless both rows carry a payload. -/
def combine (f : K) : Option V → Option V → Option V
  | some v, some w => some (w - f • v)
  | _, w => w

/-- Swap row `r` to position `i`, normalise it, and clear column `i` in all other rows. -/
def pivotStep (s : LinearSystem k K V) (i r : Fin k) : LinearSystem k K V where
  coeff := pivotCoeff s.coeff i r
  payload t :=
    if t = i then (s.payload r).map fun v => (s.coeff r i)⁻¹ • v
    else combine (s.coeff (Equiv.swap i r t) i) ((s.payload r).map fun v => (s.coeff r i)⁻¹ • v)
      (s.payload (Equiv.swap i r t))
  origin := (Equiv.swap i r).trans s.origin

/-- `r` is the first row from `i` on with a nonzero entry in column `i`. -/
def IsPivot (s : LinearSystem k K V) (i r : Fin k) : Prop :=
  i ≤ r ∧ s.coeff r i ≠ 0 ∧ ∀ t, i ≤ t → t < r → s.coeff t i = 0

/-- `s.Reaches n t`: pivoting the first `n` columns of `s` one after the other gives `t`. -/
inductive Reaches (s : LinearSystem k K V) : ℕ → LinearSystem k K V → Prop
  | start : Reaches s 0 s
  | step {t : LinearSystem k K V} (i r : Fin k) : Reaches s i t → t.IsPivot i r →
      Reaches s (i + 1) (t.pivotStep i r)

/-- Elimination stops at a column without a usable entry. -/
def Stuck (s : LinearSystem k K V) : Prop :=
  ∃ (i : Fin k) (t : LinearSystem k K V), s.Reaches i t ∧ ∀ r, i ≤ r → t.coeff r i = 0

def values (s : LinearSystem k K V) (t : Fin k) : V := (s.payload t).getD 0

variable {s t : LinearSystem k K V} {n : ℕ}

private theorem swap_ne_of_lt {i r c t : Fin k} (hi : i ≤ r) (hc : c < i) (ht : t ≠ i) :
    Equiv.swap i r t = c ↔ t = c := by
  by_cases htr : t = r
  · subst htr
    rw [Equiv.swap_apply_right]
    constructor
    · intro h; exact absurd h (ne_of_gt hc)
    · intro h; exact absurd (h ▸ hi) (not_le.mpr hc)
  · rw [Equiv.swap_apply_of_ne_of_ne ht htr]

theorem Reaches.unit_column (h : s.Reaches n t) (r c : Fin k) (hc : c.val < n) :
    t.coeff r c = if r = c then 1 else 0 := by
  induction h generalizing r c with
  | start => simp at hc
  | @step u i p hu hp ih =>
      obtain ⟨hip, hne, -⟩ := hp
      by_cases hci : c = i
      · subst hci
        exact pivotCoeff_pivot u.coeff hne r
      · have hlt : c < i := lt_of_le_of_ne (Fin.le_def.mpr (Nat.lt_succ_iff.mp hc)) hci
        have hpc : u.coeff p c = 0 := by
          rw [ih p c hlt, if_neg (ne_of_gt (lt_of_lt_of_le hlt hip))]
        change pivotCoeff u.coeff i p r c = _
        unfold pivotCoeff
        by_cases hri : r = i
        · rw [if_pos hri, hpc, mul_zero, if_neg (hri ▸ Ne.symm hci)]
        · rw [if_neg hri, hpc, mul_zero, mul_zero, sub_zero, ih _ c hlt]
          simp only [swap_ne_of_lt hip hlt hri]

theorem Reaches.coeff_eq_one (h : s.Reaches k t) (r c : Fin k) :
    t.coeff r c = if r = c then 1 else 0 :=
  h.unit_column r c c.isLt

theorem Reaches.solves_zero_iff (h : s.Reaches n t) (x : Fin k → K) :
    Solves t.coeff 0 x ↔ Solves s.coeff 0 x := by
  induction h with
  | start => rfl
  | @step u i r hu hp ih =>
      have hzero : pivotRhs u.coeff (0 : Fin k → K) i r = 0 := by
        funext j
        simp [pivotRhs]
      rw [← ih, ← solves_pivot_iff u.coeff 0 x hp.2.1, hzero]
      rfl

theorem linearIndependent_iff_solves (A : Fin k → Fin k → K) :
    LinearIndependent K A ↔ ∀ x : Fin k → K, Solves A 0 x → x = 0 := by
  have hkernel : (∀ x : Fin k → K, Solves A 0 x → x = 0) ↔
      ¬ ∃ x : Fin k → K, x ≠ 0 ∧ (Matrix.of A).mulVec x = 0 := by
    constructor
    · rintro h ⟨x, hne, hx⟩
      exact hne (h x fun r => congrFun hx r)
    · intro h x hx
      by_contra hne
      exact h ⟨x, hne, funext hx⟩
  rw [hkernel, Matrix.exists_mulVec_eq_zero_iff, ← ne_eq, ← isUnit_iff_ne_zero,
    ← Matrix.isUnit_iff_isUnit_det, ← Matrix.linearIndependent_rows_iff_isUnit]
  rfl

theorem Reaches.linearIndependent (h : s.Reaches k t) : LinearIndependent K s.coeff := by
  rw [linearIndependent_iff_solves]
  intro x hx
  rw [← h.solves_zero_iff] at hx
  funext r
  simpa [h.coeff_eq_one] using hx r

theorem Stuck.not_linearIndependent (h : s.Stuck) : ¬ LinearIndependent K s.coeff := by
  obtain ⟨i, t, hreach, hcol⟩ := h
  rw [linearIndependent_iff_solves]
  intro hker
  -- Column `i` is a combination of the unit columns before it.
  let x : Fin k → K := fun c => if c < i then t.coeff c i else if c = i then -1 else 0
  have hx : Solves t.coeff 0 x := by
    intro r
    have hterm : ∀ c, t.coeff r c • x c =
        (if c = r then (if r < i then t.coeff r i else 0) else 0) +
          (if c = i then -t.coeff r i else 0) := by
      intro c
      by_cases hci : c < i
      · rw [hreach.unit_column r c hci]
        by_cases hrc : r = c
        · subst hrc; simp [x, hci, ne_of_lt hci]
        · simp [x, hrc, Ne.symm hrc, ne_of_lt hci]
      · by_cases hce : c = i
        · subst hce
          by_cases hcr : c = r
          · subst hcr; simp [x]
          · simp [x, hcr]
        · have hcr : c = r → ¬ r < i := by rintro rfl; exact hci
          simp only [x, hci, hce, if_false, smul_zero, add_zero]
          split <;> simp_all
    rw [Finset.sum_congr rfl fun c _ => hterm c, Finset.sum_add_distrib, Finset.sum_ite_eq',
      Finset.sum_ite_eq']
    by_cases hri : r < i
    · simp [hri]
    · simp [hri, hcol r (not_lt.mp hri)]
  have hzero := congrFun (hker x ((hreach.solves_zero_iff x).mp hx)) i
  simp [x] at hzero

/-- The step does not change a row without payload while using one that has it. -/
def Faithful (s : LinearSystem k K V) (i r : Fin k) : Prop :=
  (s.payload r).isSome → ∀ t, t ≠ i → s.payload (Equiv.swap i r t) = none →
    s.coeff (Equiv.swap i r t) i = 0

theorem values_pivotStep {i r : Fin k} (h : s.Faithful i r) :
    (s.pivotStep i r).values = pivotRhs s.coeff s.values i r := by
  funext t
  by_cases ht : t = i
  · cases hr : s.payload r <;> simp [values, pivotStep, pivotRhs, ht, hr]
  · cases hr : s.payload r with
    | none => simp [values, pivotStep, pivotRhs, ht, hr, combine]
    | some v =>
        cases hq : s.payload (Equiv.swap i r t) with
        | some w => simp [values, pivotStep, pivotRhs, ht, hr, hq, combine]
        | none =>
            have hz := h (by simp [hr]) t ht hq
            simp [values, pivotStep, pivotRhs, ht, hr, hq, combine, hz]

theorem solves_values_pivotStep {i r : Fin k} (hp : s.IsPivot i r) (h : s.Faithful i r)
    (x : Fin k → V) :
    Solves (s.pivotStep i r).coeff (s.pivotStep i r).values x ↔ Solves s.coeff s.values x := by
  rw [values_pivotStep h]
  exact solves_pivot_iff s.coeff s.values x hp.2.1

theorem isSome_payload_pivotStep (s : LinearSystem k K V) (i r t : Fin k) :
    ((s.pivotStep i r).payload t).isSome = (s.payload (Equiv.swap i r t)).isSome := by
  by_cases ht : t = i
  · subst ht
    simp [pivotStep]
  · cases hr : s.payload r <;> cases hq : s.payload (Equiv.swap i r t) <;>
      simp [pivotStep, ht, hr, hq, combine]

theorem Reaches.isSome_payload (h : s.Reaches n t) (hs : s.origin = 1) (r : Fin k) :
    (t.payload r).isSome = (s.payload (t.origin r)).isSome := by
  induction h generalizing r with
  | start => simp [hs]
  | step i p _ _ ih =>
      rw [isSome_payload_pivotStep, ih]
      rfl

theorem Reaches.origin_settled (h : s.Reaches n t) {m : ℕ} (hm : m ≤ n) :
    ∃ u, s.Reaches m u ∧ ∀ r : Fin k, r.val < m → t.origin r = u.origin r := by
  induction h with
  | start =>
      obtain rfl : m = 0 := Nat.le_zero.mp hm
      exact ⟨s, .start, fun _ _ => rfl⟩
  | @step u i p hu hp ih =>
      rcases Nat.lt_or_eq_of_le hm with hlt | rfl
      · obtain ⟨v, hv, hvo⟩ := ih (Nat.lt_succ_iff.mp hlt)
        refine ⟨v, hv, fun r hr => ?_⟩
        have hri : r < i := Fin.lt_def.mpr (by omega)
        have hswap : Equiv.swap i p r = r :=
          Equiv.swap_apply_of_ne_of_ne (ne_of_lt hri) (ne_of_lt (lt_of_lt_of_le hri hp.1))
        simp [pivotStep, hswap, hvo r hr]
      · exact ⟨_, .step i p hu hp, fun _ _ => rfl⟩

theorem Reaches.combination (h : s.Reaches n t) (hs : s.origin = 1) (q : Fin k) :
    ∃ w : Fin k → K, (∀ c, t.coeff q c = ∑ p, w p * s.coeff (t.origin p) c) ∧
      ∀ p : Fin k, n ≤ p.val → w p = if p = q then 1 else 0 := by
  induction h generalizing q with
  | start =>
      refine ⟨fun p => if p = q then 1 else 0, fun c => ?_, fun p _ => rfl⟩
      simp [hs]
  | @step u i r hu hp ih =>
      have hreindex : ∀ (w : Fin k → K) (c : Fin k), ∑ p, w p * s.coeff (u.origin p) c =
          ∑ p, w (Equiv.swap i r p) * s.coeff ((u.pivotStep i r).origin p) c := by
        intro w c
        rw [← Equiv.sum_comp (Equiv.swap i r)]
        rfl
      have hlater : ∀ p : Fin k, i.val + 1 ≤ p.val → p ≠ i ∧ i.val ≤ (Equiv.swap i r p).val := by
        intro p hpi
        have hpne : p ≠ i := by rintro rfl; omega
        refine ⟨hpne, ?_⟩
        by_cases h : p = r
        · simp [h]
        · rw [Equiv.swap_apply_of_ne_of_ne hpne h]; omega
      obtain ⟨v, hv, hv1⟩ := ih r
      have hvlater : ∀ p : Fin k, i.val + 1 ≤ p.val → v (Equiv.swap i r p) = 0 := by
        intro p hpi
        obtain ⟨hpne, hle⟩ := hlater p hpi
        rw [hv1 _ hle, if_neg]
        intro h
        exact hpne (by rw [← Equiv.swap_apply_self i r p, h, Equiv.swap_apply_right])
      by_cases hq : q = i
      · subst hq
        refine ⟨fun p => (u.coeff r q)⁻¹ * v (Equiv.swap q r p), fun c => ?_, fun p hpi => ?_⟩
        · change pivotCoeff u.coeff q r q c = _
          simp only [pivotCoeff, if_true, mul_assoc, ← Finset.mul_sum]
          rw [hv c, hreindex]
        · simp only [hvlater p hpi, mul_zero, if_neg (hlater p hpi).1]
      · obtain ⟨w, hw, hw1⟩ := ih (Equiv.swap i r q)
        let f := u.coeff (Equiv.swap i r q) i * (u.coeff r i)⁻¹
        refine ⟨fun p => w (Equiv.swap i r p) - f * v (Equiv.swap i r p), fun c => ?_,
          fun p hpi => ?_⟩
        · change pivotCoeff u.coeff i r q c = _
          simp only [pivotCoeff, if_neg hq, sub_mul, Finset.sum_sub_distrib, mul_assoc,
            ← Finset.mul_sum, f]
          rw [hw c, hv c, hreindex w, hreindex v]
        · simp only [hvlater p hpi, mul_zero, sub_zero, hw1 _ (hlater p hpi).2,
            (Equiv.swap i r).injective.eq_iff]

theorem Reaches.payload_eq_of_complete (h : s.Reaches k t)
    (hall : ∀ r, (s.payload r).isSome) {x : Fin k → V} (hx : Solves s.coeff s.values x)
    (r : Fin k) : t.payload r = some (x r) := by
  have hkeep : ∀ {n u}, s.Reaches n u →
      (∀ r, (u.payload r).isSome) ∧ Solves u.coeff u.values x := by
    intro n u hu
    induction hu with
    | start => exact ⟨hall, hx⟩
    | @step u i p _ hp ih =>
        obtain ⟨hu, hsolve⟩ := ih
        refine ⟨fun r => by rw [isSome_payload_pivotStep]; exact hu _, ?_⟩
        rw [solves_values_pivotStep hp]
        · exact hsolve
        · intro _ j _ hnone
          have hj := hu (Equiv.swap i p j)
          simp [hnone] at hj
  obtain ⟨hsome, hsolve⟩ := hkeep h
  have hr := hsolve r
  simp only [h.coeff_eq_one, ite_smul, one_smul, zero_smul, Finset.sum_ite_eq, Finset.mem_univ,
    if_true] at hr
  obtain ⟨v, hv⟩ := Option.isSome_iff_exists.mp (hsome r)
  rw [hv, hr, values, hv]
  rfl

end LinearSystem

end QuicFuscate.Framework
