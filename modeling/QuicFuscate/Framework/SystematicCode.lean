import QuicFuscate.Framework.Elimination

/-!
# Elimination on systematic codes

The rows of a systematic code are unit rows, whose payload is held elsewhere, and repair rows,
any `m` of which are independent on any `m` columns.  Elimination always succeeds on `k` such
rows.  Whether it leaves a payload at every missing position depends on the order of the rows:
a unit row has to be met before more repair rows than there are missing positions below it.
-/

namespace QuicFuscate.Framework

open LinearSystem

variable {K V : Type} [Field K] {k : ℕ}

/-- Square submatrices of the chosen rows are nonsingular: a combination of rows that vanishes
on no fewer columns is trivial. -/
def MaximumDistance (rows : Finset (Fin k)) (A : Fin k → Fin k → K) : Prop :=
  ∀ T ⊆ rows, ∀ C : Finset (Fin k), T.card ≤ C.card → ∀ w : Fin k → K,
    (∀ c ∈ C, ∑ t ∈ T, w t * A t c = 0) → ∀ t ∈ T, w t = 0

/-- `k` distinct rows of a systematic code.  `kind t = some j` marks the unit row of position `j`
and `kind t = none` a repair row. -/
structure SystematicRows (s : LinearSystem k K V) where
  kind : Fin k → Option (Fin k)
  origin_eq : s.origin = 1
  kind_inj : ∀ {t u j}, kind t = some j → kind u = some j → t = u
  unit_row : ∀ {t j}, kind t = some j → ∀ c, s.coeff t c = if c = j then 1 else 0
  unit_payload : ∀ {t j}, kind t = some j → s.payload t = none
  repair_payload : ∀ {t}, kind t = none → (s.payload t).isSome
  maximumDistance : MaximumDistance {t | kind t = none} s.coeff

namespace SystematicRows

variable {s : LinearSystem k K V} (R : SystematicRows s)

def repairs : Finset (Fin k) := {t | R.kind t = none}

def missing : Finset (Fin k) := {c | ∀ t, R.kind t ≠ some c}

theorem mem_repairs {p : Fin k} : p ∈ R.repairs ↔ R.kind p = none := by simp [repairs]

theorem mem_missing {c : Fin k} : c ∈ R.missing ↔ ∀ t, R.kind t ≠ some c := by simp [missing]

theorem ne_of_mem_missing {c : Fin k} (hc : c ∈ R.missing) {p j : Fin k}
    (hp : R.kind p = some j) : c ≠ j := by
  rintro rfl
  exact R.mem_missing.mp hc p hp

theorem exists_of_not_mem_missing {c : Fin k} (h : c ∉ R.missing) : ∃ t, R.kind t = some c := by
  simpa [missing] using h

theorem isSome_payload_iff (p : Fin k) : (s.payload p).isSome ↔ R.kind p = none := by
  cases h : R.kind p with
  | none => simpa using R.repair_payload h
  | some j => simp [R.unit_payload h]

theorem card_repairs : R.repairs.card = R.missing.card := by
  have hunit : ∀ p ∈ R.repairsᶜ, ∃ j, R.kind p = some j := by
    intro p hp
    exact Option.ne_none_iff_exists'.mp (by simpa [mem_repairs] using hp)
  choose! slot hslot using hunit
  have hbij : (R.repairsᶜ).card = (R.missingᶜ).card := by
    apply Finset.card_bij (fun p _ => slot p)
    · intro p hp
      rw [Finset.mem_compl, mem_missing]
      intro h
      exact h p (hslot p hp)
    · intro p hp q hq h
      exact R.kind_inj (hslot p hp) (h ▸ hslot q hq)
    · intro c hc
      obtain ⟨p, hp⟩ := R.exists_of_not_mem_missing (by simpa using hc)
      have hmem : p ∈ R.repairsᶜ := by simp [mem_repairs, hp]
      exact ⟨p, hmem, Option.some_injective _ ((hslot p hmem).symm.trans hp)⟩
  rw [Finset.card_compl, Finset.card_compl] at hbij
  have h1 := R.repairs.card_le_univ
  have h2 := R.missing.card_le_univ
  omega

include R in
theorem linearIndependent : LinearIndependent K s.coeff := by
  rw [Fintype.linearIndependent_iff]
  intro g hg
  have hcol : ∀ c, ∑ p, g p * s.coeff p c = 0 := by
    intro c
    simpa using congrFun hg c
  have hrepair : ∀ p ∈ R.repairs, g p = 0 := by
    apply R.maximumDistance R.repairs (fun p hp => by simpa [repairs] using hp) R.missing
      R.card_repairs.le g
    intro c hc
    rw [← hcol c]
    apply Finset.sum_subset (Finset.subset_univ _)
    intro p _ hp
    obtain ⟨j, hj⟩ := Option.ne_none_iff_exists'.mp (mt R.mem_repairs.mpr hp)
    rw [R.unit_row hj, if_neg (R.ne_of_mem_missing hc hj), mul_zero]
  intro p
  cases hp : R.kind p with
  | none => exact hrepair p (R.mem_repairs.mpr hp)
  | some j =>
      rw [← hcol j, Finset.sum_eq_single p]
      · rw [R.unit_row hp, if_pos rfl, mul_one]
      · intro q _ hqp
        cases hq : R.kind q with
        | none => rw [hrepair q (R.mem_repairs.mpr hq), zero_mul]
        | some i =>
            have hij : j ≠ i := by
              rintro rfl
              exact hqp (R.kind_inj hq hp)
            rw [R.unit_row hq, if_neg hij, mul_zero]
      · simp

def repairsBefore (p : Fin k) : ℕ := (R.repairs.filter (· < p)).card

def missingBelow (n : ℕ) : ℕ := (R.missing.filter (·.val < n)).card

theorem missingBelow_succ (i : Fin k) :
    R.missingBelow (i.val + 1) = R.missingBelow i + if i ∈ R.missing then 1 else 0 := by
  have hsplit : R.missing.filter (·.val < i.val + 1) =
      R.missing.filter (·.val < i.val) ∪ R.missing.filter (· = i) := by
    ext c
    simp only [Finset.mem_filter, Finset.mem_union, Fin.ext_iff, ← and_or_left,
      Nat.lt_succ_iff_lt_or_eq]
  have hdisj : Disjoint (R.missing.filter (·.val < i.val)) (R.missing.filter (· = i)) := by
    apply Finset.disjoint_filter.mpr
    rintro c _ hc rfl
    omega
  rw [missingBelow, hsplit, Finset.card_union_of_disjoint hdisj, Finset.filter_eq']
  split <;> simp [missingBelow]

/-- Every unit row below position `n` comes before it is overtaken by repair rows. -/
def OrderedBelow (n : ℕ) : Prop :=
  ∀ p j, R.kind p = some j → j.val < n → R.repairsBefore p ≤ R.missingBelow j

private def repairsAhead (u : LinearSystem k K V) (n : ℕ) (p : Fin k) : ℕ :=
  (Finset.univ.filter fun q : Fin k => n ≤ q.val ∧ q < p ∧ R.kind (u.origin q) = none).card

/-- The pivot of an aligned step: the rows skipped are unit rows, and the pivot is the unit row
of the column or, where that row is missing, a repair row. -/
private structure GoodPivot (u : LinearSystem k K V) (i r : Fin k) : Prop where
  pivot : u.IsPivot i r
  kind_eq : R.kind (u.origin r) = if i ∈ R.missing then none else some i
  skipped : ∀ q, i ≤ q → q < r → R.kind (u.origin q) ≠ none

private theorem GoodPivot.ahead_eq_zero {u : LinearSystem k K V} {i r q : Fin k}
    (hgood : R.GoodPivot u i r) (hq : q ≤ r) : R.repairsAhead u i q = 0 := by
  rw [repairsAhead, Finset.card_eq_zero, Finset.filter_eq_empty_iff]
  rintro p - ⟨hip, hpq, hnone⟩
  exact hgood.skipped p hip (lt_of_lt_of_le hpq hq) hnone

variable [AddCommGroup V] [Module K V]

/-- The shape of a system after `n` columns whose unit rows were all pivoted in place. -/
private structure Aligned (n : ℕ) (u : LinearSystem k K V) : Prop where
  reaches : s.Reaches n u
  settled : ∀ q : Fin k, q.val < n → R.kind (u.origin q) = if q ∈ R.missing then none else some q
  unit_row : ∀ q j, R.kind (u.origin q) = some j → ∀ c, u.coeff q c = if c = j then 1 else 0
  ahead : ∀ q : Fin k, n ≤ q.val → ∀ j, R.kind (u.origin q) = some j →
    R.repairsAhead u n q = R.repairsBefore (u.origin q) - R.missingBelow n
  solves : ∀ x, Solves u.coeff u.values x ↔ Solves s.coeff s.values x

namespace Aligned

variable {R} {n : ℕ} {u : LinearSystem k K V}

private theorem missing_of_settled (A : R.Aligned n u) {q : Fin k} (hq : q.val < n) :
    R.kind (u.origin q) = none ↔ q ∈ R.missing := by
  rw [A.settled q hq]
  split <;> simp_all

theorem repair_entry_ne_zero (A : R.Aligned n u) {i q : Fin k} (hi : i.val = n) (hq : i ≤ q)
    (hkind : R.kind (u.origin q) = none) : u.coeff q i ≠ 0 := by
  intro hzero
  obtain ⟨w, hw, hw1⟩ := A.reaches.combination R.origin_eq q
  -- The rows involved: `q` and the repair rows pivoted so far, seen on as many columns.
  let P : Finset (Fin k) := insert q (R.missing.filter (·.val < n))
  let C : Finset (Fin k) := insert i (R.missing.filter (·.val < n))
  have hqn : n ≤ q.val := hi ▸ Fin.le_def.mp hq
  have hcard : (P.map u.origin.toEmbedding).card ≤ C.card := by
    rw [Finset.card_map, Finset.card_insert_of_notMem, Finset.card_insert_of_notMem]
    · simp [hi]
    · simp only [Finset.mem_filter, not_and, not_lt]
      exact fun _ => hqn
  have hvanish : ∀ c ∈ C, ∑ p ∈ P.map u.origin.toEmbedding,
      w (u.origin.symm p) * s.coeff p c = 0 := by
    intro c hc
    have hqc : u.coeff q c = 0 := by
      rcases Finset.mem_insert.mp hc with rfl | hc
      · exact hzero
      · have hlt := (Finset.mem_filter.mp hc).2
        rw [A.reaches.unit_column q c hlt, if_neg]
        rintro rfl
        omega
    rw [← hqc, hw c, Finset.sum_map]
    simp only [Equiv.coe_toEmbedding, Equiv.symm_apply_apply]
    apply Finset.sum_subset (Finset.subset_univ _)
    intro p _ hp
    simp only [P, Finset.mem_insert, Finset.mem_filter, not_or, not_and] at hp
    by_cases hpn : p.val < n
    · have hset := A.settled p hpn
      rw [if_neg fun h => hp.2 h hpn] at hset
      have hcp : c ≠ p := by
        rintro rfl
        rcases Finset.mem_insert.mp hc with rfl | hc
        · omega
        · exact hp.2 (Finset.mem_filter.mp hc).1 hpn
      rw [R.unit_row hset, if_neg hcp, mul_zero]
    · rw [hw1 p (by omega), if_neg hp.1, zero_mul]
  have hone := R.maximumDistance (P.map u.origin.toEmbedding) (by
    intro p hp
    obtain ⟨q', hq', rfl⟩ := Finset.mem_map.mp hp
    simp only [Finset.mem_filter, Finset.mem_univ, true_and, Equiv.coe_toEmbedding]
    rcases Finset.mem_insert.mp hq' with rfl | hq'
    · exact hkind
    · obtain ⟨hmiss, hlt⟩ := Finset.mem_filter.mp hq'
      exact (A.missing_of_settled hlt).mpr hmiss) C hcard _ hvanish (u.origin q)
    (Finset.mem_map.mpr ⟨q, Finset.mem_insert_self _ _, rfl⟩)
  rw [Equiv.symm_apply_apply, hw1 q hqn, if_pos rfl] at hone
  exact one_ne_zero hone

private theorem skipped_of_pivot (A : R.Aligned n u) {i r : Fin k} (hi : i.val = n)
    (hp : u.IsPivot i r) (q : Fin k) (hq : i ≤ q) (hqr : q < r) :
    R.kind (u.origin q) ≠ none := by
  intro hnone
  exact A.repair_entry_ne_zero hi hq hnone (hp.2.2 q hq hqr)

private theorem pivot_of_unit (A : R.Aligned n u) {i r j : Fin k} (hp : u.IsPivot i r)
    (hj : R.kind (u.origin r) = some j) : i = j := by
  by_contra hne
  exact hp.2.1 (by rw [A.unit_row r j hj, if_neg hne])

private theorem exists_unit_position (A : R.Aligned n u) {i : Fin k} (hi : i.val = n)
    (hmiss : i ∉ R.missing) : ∃ q, i ≤ q ∧ R.kind (u.origin q) = some i := by
  obtain ⟨p, hp⟩ := R.exists_of_not_mem_missing hmiss
  refine ⟨u.origin.symm p, ?_, by rw [Equiv.apply_symm_apply, hp]⟩
  by_contra hlt
  have hset := A.settled (u.origin.symm p) (hi ▸ not_le.mp hlt)
  rw [Equiv.apply_symm_apply, hp] at hset
  split at hset
  · cases hset
  · exact hlt (le_of_eq (Option.some_injective _ hset))

/-- The pivot of column `i` is the row the code intends exactly when the unit row of `i` has not
been overtaken. -/
private theorem goodPivot (A : R.Aligned n u) {i r : Fin k} (hi : i.val = n)
    (hp : u.IsPivot i r)
    (hord : ∀ p, R.kind p = some i → R.repairsBefore p ≤ R.missingBelow i) :
    R.GoodPivot u i r := by
  refine ⟨hp, ?_, A.skipped_of_pivot hi hp⟩
  by_cases hmiss : i ∈ R.missing
  · rw [if_pos hmiss]
    cases hr : R.kind (u.origin r) with
    | none => rfl
    | some j => exact absurd (A.pivot_of_unit hp hr) (R.ne_of_mem_missing hmiss hr)
  · rw [if_neg hmiss]
    obtain ⟨q, hiq, hq⟩ := A.exists_unit_position hi hmiss
    have hahead := A.ahead q (hi ▸ Fin.le_def.mp hiq) i hq
    rw [← hi, Nat.sub_eq_zero_of_le (hord _ hq), repairsAhead, Finset.card_eq_zero,
      Finset.filter_eq_empty_iff] at hahead
    have hqr : r ≤ q := by
      by_contra hlt
      have hzero := hp.2.2 q hiq (not_le.mp hlt)
      rw [A.unit_row q i hq, if_pos rfl] at hzero
      exact one_ne_zero hzero
    rcases lt_or_eq_of_le hqr with hlt | rfl
    · cases hr : R.kind (u.origin r) with
      | none => exact absurd ⟨Fin.le_def.mp hp.1, hlt, hr⟩ (hahead (Finset.mem_univ r))
      | some j => rw [A.pivot_of_unit hp hr]
    · exact hq

private theorem ahead_step_eq_zero {i r q : Fin k} (hgood : R.GoodPivot u i r) (hq : q ≤ r) :
    R.repairsAhead (u.pivotStep i r) (i + 1) q = 0 := by
  rw [repairsAhead, Finset.card_eq_zero, Finset.filter_eq_empty_iff]
  rintro p - ⟨hip, hpq, hnone⟩
  have hpr : p < r := lt_of_lt_of_le hpq hq
  have hpi : i < p := Fin.lt_def.mpr hip
  have hswap : Equiv.swap i r p = p := Equiv.swap_apply_of_ne_of_ne hpi.ne' hpr.ne
  apply hgood.skipped p hpi.le hpr
  rw [← hnone]
  simp [pivotStep, hswap]

private theorem ahead_step {i r q : Fin k} (hgood : R.GoodPivot u i r) (hq : r < q) :
    R.repairsAhead u i q =
      R.repairsAhead (u.pivotStep i r) (i + 1) q + if i ∈ R.missing then 1 else 0 := by
  let beyond := Finset.univ.filter fun p : Fin k => r < p ∧ p < q ∧ R.kind (u.origin p) = none
  have hir := hgood.pivot.1
  have hnew : R.repairsAhead (u.pivotStep i r) (i + 1) q = beyond.card := by
    rw [repairsAhead]
    congr 1
    ext p
    simp only [beyond, Finset.mem_filter, Finset.mem_univ, true_and]
    constructor
    · rintro ⟨hip, hpq, hnone⟩
      have hpi : i < p := Fin.lt_def.mpr hip
      rcases lt_trichotomy p r with hpr | rfl | hpr
      · have hswap : Equiv.swap i r p = p := Equiv.swap_apply_of_ne_of_ne hpi.ne' hpr.ne
        exact absurd (by simpa [pivotStep, hswap] using hnone) (hgood.skipped p hpi.le hpr)
      · exact absurd (by simpa [pivotStep] using hnone) (hgood.skipped i le_rfl hpi)
      · have hswap : Equiv.swap i r p = p := Equiv.swap_apply_of_ne_of_ne hpi.ne' hpr.ne'
        exact ⟨hpr, hpq, by simpa [pivotStep, hswap] using hnone⟩
    · rintro ⟨hrp, hpq, hnone⟩
      have hip := lt_of_le_of_lt hir hrp
      have hswap : Equiv.swap i r p = p := Equiv.swap_apply_of_ne_of_ne hip.ne' hrp.ne'
      exact ⟨Fin.lt_def.mp hip, hpq, by simpa [pivotStep, hswap] using hnone⟩
  have hold : R.repairsAhead u i q = beyond.card + if i ∈ R.missing then 1 else 0 := by
    have hmem : ∀ p, (i.val ≤ p.val ∧ p < q ∧ R.kind (u.origin p) = none) ↔
        (p = r ∧ i ∈ R.missing) ∨ (r < p ∧ p < q ∧ R.kind (u.origin p) = none) := by
      intro p
      rcases lt_trichotomy p r with hpr | rfl | hpr
      · constructor
        · rintro ⟨hip, -, hnone⟩
          exact absurd hnone (hgood.skipped p hip hpr)
        · rintro (⟨rfl, -⟩ | ⟨hrp, -⟩)
          · exact absurd hpr (lt_irrefl _)
          · exact absurd hpr (lt_asymm hrp)
      · have hkind := hgood.kind_eq
        by_cases hmiss : i ∈ R.missing <;> simp [hkind, hmiss, hq, Fin.le_def.mp hir]
      · have hip := Fin.le_def.mp (hir.trans hpr.le)
        simp [hpr.ne', hpr, hip]
    have hset : (Finset.univ.filter fun p : Fin k =>
        i.val ≤ p.val ∧ p < q ∧ R.kind (u.origin p) = none) =
        if i ∈ R.missing then insert r beyond else beyond := by
      ext p
      simp only [Finset.mem_filter, Finset.mem_univ, true_and, hmem p]
      split <;> simp_all [beyond]
    rw [repairsAhead, hset]
    split
    · rw [Finset.card_insert_of_notMem (by simp [beyond])]
    · rfl
  rw [hold, hnew]

private theorem unit_row_step (A : R.Aligned n u) {i r : Fin k} (hgood : R.GoodPivot u i r)
    (q j : Fin k) (hj : R.kind ((u.pivotStep i r).origin q) = some j) (c : Fin k) :
    (u.pivotStep i r).coeff q c = if c = j then 1 else 0 := by
  change R.kind (u.origin (Equiv.swap i r q)) = some j at hj
  have hrow := A.unit_row _ j hj
  change pivotCoeff u.coeff i r q c = _
  by_cases hq : q = i
  · subst hq
    rw [Equiv.swap_apply_left] at hj hrow
    have hqj := A.pivot_of_unit hgood.pivot hj
    rw [pivotCoeff, if_pos rfl, hrow, hrow, if_pos hqj, inv_one, one_mul]
  · have hij : i ≠ j := by
      intro hij
      by_cases hmiss : i ∈ R.missing
      · exact R.ne_of_mem_missing hmiss hj hij
      · have hr := hgood.kind_eq
        rw [if_neg hmiss, hij] at hr
        have hswap := u.origin.injective (R.kind_inj hj hr)
        exact hq (by rw [← Equiv.swap_apply_self i r q, hswap, Equiv.swap_apply_right])
    rw [pivotCoeff, if_neg hq, hrow i, if_neg hij, zero_mul, sub_zero, hrow c]

private theorem faithful (A : R.Aligned n u) {i r : Fin k} (hgood : R.GoodPivot u i r) :
    u.Faithful i r := by
  intro hsome t _ hnone
  rw [A.reaches.isSome_payload R.origin_eq, R.isSome_payload_iff] at hsome
  have hmiss : i ∈ R.missing := by
    by_contra hmiss
    rw [hgood.kind_eq, if_neg hmiss] at hsome
    cases hsome
  have hunit : R.kind (u.origin (Equiv.swap i r t)) ≠ none := by
    intro h
    have := (A.reaches.isSome_payload R.origin_eq _).trans (R.repair_payload h)
    simp [hnone] at this
  obtain ⟨j, hj⟩ := Option.ne_none_iff_exists'.mp hunit
  rw [A.unit_row _ j hj, if_neg (R.ne_of_mem_missing hmiss hj)]

private theorem step (A : R.Aligned n u) {i r : Fin k} (hi : i.val = n)
    (hgood : R.GoodPivot u i r) : R.Aligned (n + 1) (u.pivotStep i r) := by
  subst hi
  have hir := hgood.pivot.1
  refine ⟨.step i r A.reaches hgood.pivot, ?_, A.unit_row_step hgood, ?_, ?_⟩
  · intro q hq
    rcases Nat.lt_or_eq_of_le (Nat.lt_succ_iff.mp hq) with hlt | heq
    · have hqi : q < i := hlt
      have hswap : Equiv.swap i r q = q :=
        Equiv.swap_apply_of_ne_of_ne hqi.ne (lt_of_lt_of_le hqi hir).ne
      simpa [pivotStep, hswap] using A.settled q hlt
    · obtain rfl : q = i := Fin.ext heq
      simpa [pivotStep] using hgood.kind_eq
  · intro q hq j hj
    have hiq : i < q := Fin.lt_def.mpr hq
    rw [missingBelow_succ]
    rcases lt_or_ge r q with hrq | hqr
    · have hswap : Equiv.swap i r q = q := Equiv.swap_apply_of_ne_of_ne hiq.ne' hrq.ne'
      have hkind : R.kind (u.origin q) = some j := by simpa [pivotStep, hswap] using hj
      have hahead := A.ahead q hiq.le j hkind
      rw [ahead_step hgood hrq] at hahead
      simp only [pivotStep, Equiv.trans_apply, hswap]
      rw [← Nat.sub_sub, ← hahead, Nat.add_sub_cancel]
      rfl
    · -- The row came from a position before the pivot, so no repair row was ahead of it.
      have hold : i ≤ Equiv.swap i r q ∧ Equiv.swap i r q ≤ r := by
        rcases lt_or_eq_of_le hqr with hlt | rfl
        · rw [Equiv.swap_apply_of_ne_of_ne hiq.ne' hlt.ne]
          exact ⟨hiq.le, hlt.le⟩
        · rw [Equiv.swap_apply_right]
          exact ⟨le_rfl, hir⟩
      have hahead := A.ahead _ (Fin.le_def.mp hold.1) j hj
      rw [GoodPivot.ahead_eq_zero R hgood hold.2] at hahead
      rw [ahead_step_eq_zero hgood hqr, ← Nat.sub_sub]
      simp only [pivotStep, Equiv.trans_apply]
      omega
  · intro x
    rw [solves_values_pivotStep hgood.pivot (A.faithful hgood)]
    exact A.solves x

private theorem initial : R.Aligned 0 s := by
  refine ⟨.start, fun q hq => absurd hq (Nat.not_lt_zero _), ?_, ?_, fun x => Iff.rfl⟩
  · intro q j hj c
    rw [R.origin_eq] at hj
    exact R.unit_row hj c
  · intro q _ j _
    simp only [missingBelow, Nat.not_lt_zero, Finset.filter_false, Finset.card_empty,
      Nat.sub_zero, R.origin_eq]
    rw [repairsAhead, repairsBefore]
    congr 1
    ext p
    rw [Finset.mem_filter, Finset.mem_filter, mem_repairs, R.origin_eq]
    simp [and_comm]

end Aligned

variable {t u : LinearSystem k K V} {n : ℕ}

/-- As long as no unit row is overtaken, every column is pivoted on the row meant for it. -/
private theorem aligned_of_orderedBelow (h : s.Reaches n u) (hord : R.OrderedBelow n) :
    R.Aligned n u := by
  induction h with
  | start => exact Aligned.initial
  | step i r _ hp ih =>
      have A := ih fun p j hj hlt => hord p j hj (by omega)
      exact A.step rfl (A.goodPivot rfl hp fun p hj => hord p i hj (Nat.lt_succ_self _))

private theorem overtaken (h : s.Reaches k t) (hord : ¬ R.OrderedBelow k) :
    ∃ i, i ∉ R.missing ∧ R.kind (t.origin i) = none := by
  classical
  have hexists : ∃ n, ∃ p j, R.kind p = some j ∧ j.val = n ∧
      R.missingBelow j < R.repairsBefore p := by
    simp only [OrderedBelow, not_forall, not_le] at hord
    obtain ⟨p, j, hj, -, hlt⟩ := hord
    exact ⟨j, p, j, hj, rfl, hlt⟩
  obtain ⟨p, i, hkind, hi, hlt⟩ := Nat.find_spec hexists
  have hbelow : R.OrderedBelow i := by
    intro p' j hj hji
    by_contra hne
    exact Nat.find_min hexists (hi ▸ hji) ⟨p', j, hj, rfl, not_le.mp hne⟩
  have hmiss : i ∉ R.missing := fun h => R.mem_missing.mp h p hkind
  refine ⟨i, hmiss, ?_⟩
  obtain ⟨v, hv, hvo⟩ := h.origin_settled (show i.val + 1 ≤ k from i.isLt)
  rw [hvo i (Nat.lt_succ_self _)]
  generalize hm : i.val + 1 = m at hv
  cases hv with
  | start => omega
  | @step u i' r hu hp =>
      obtain rfl : i' = i := Fin.ext (by omega)
      have A := R.aligned_of_orderedBelow hu hbelow
      change R.kind (u.origin (Equiv.swap i' r i')) = none
      rw [Equiv.swap_apply_left]
      obtain ⟨q, hiq, hq⟩ := A.exists_unit_position rfl hmiss
      have hpq : u.origin q = p := R.kind_inj hq hkind
      have hahead := A.ahead q (Fin.le_def.mp hiq) i' hq
      have hpos : 0 < R.repairsAhead u i' q := by rw [hahead, hpq]; omega
      obtain ⟨q', hq'⟩ := Finset.card_pos.mp hpos
      simp only [Finset.mem_filter, Finset.mem_univ, true_and] at hq'
      have hrq : r < q := by
        by_contra hqr
        have hzero := hp.2.2 q' hq'.1 (lt_of_lt_of_le hq'.2.1 (not_lt.mp hqr))
        exact A.repair_entry_ne_zero rfl hq'.1 hq'.2.2 hzero
      cases hr : R.kind (u.origin r) with
      | none => rfl
      | some j =>
          have hij := A.pivot_of_unit hp hr
          have hrp := u.origin.injective (R.kind_inj (hij ▸ hr) hq)
          exact absurd hrp hrq.ne

/-- Elimination leaves a payload at every missing position exactly when no unit row is
overtaken. -/
theorem isSome_missing_iff (h : s.Reaches k t) :
    (∀ c ∈ R.missing, (t.payload c).isSome) ↔ R.OrderedBelow k := by
  have hsome : ∀ c, (t.payload c).isSome ↔ R.kind (t.origin c) = none := by
    intro c
    rw [h.isSome_payload R.origin_eq, R.isSome_payload_iff]
  constructor
  · intro hall
    by_contra hord
    obtain ⟨i, hi, hnone⟩ := R.overtaken h hord
    have hsub : R.missing ⊆ R.repairs.map t.origin.symm.toEmbedding := by
      intro c hc
      rw [Finset.mem_map]
      exact ⟨t.origin c, R.mem_repairs.mpr ((hsome c).mp (hall c hc)), by simp⟩
    have heq := Finset.eq_of_subset_of_card_le hsub (by rw [Finset.card_map, R.card_repairs])
    rw [heq, Finset.mem_map] at hi
    exact hi ⟨t.origin i, R.mem_repairs.mpr hnone, by simp⟩
  · intro hord c hc
    have A := R.aligned_of_orderedBelow h hord
    rw [hsome, A.settled c c.isLt, if_pos hc]

theorem solves_values_final (h : s.Reaches k t) (hord : R.OrderedBelow k) (x : Fin k → V) :
    Solves s.coeff s.values x ↔ x = t.values := by
  rw [← (R.aligned_of_orderedBelow h hord).solves x]
  simp only [Solves, h.coeff_eq_one, ite_smul, one_smul, zero_smul, Finset.sum_ite_eq,
    Finset.mem_univ, if_true]
  exact funext_iff.symm

/-- What elimination recovers.  Let every repair row carry the combination of the data its
coefficients describe.  Then the data of all missing positions come out exactly when no unit row
is overtaken and the received data contribute nothing to the repair rows used. -/
theorem recovers_iff (h : s.Reaches k t) (d : Fin k → V)
    (hdata : ∀ p ∈ R.repairs, s.payload p = some (∑ c, s.coeff p c • d c)) :
    (∀ c ∈ R.missing, t.payload c = some (d c)) ↔
      R.OrderedBelow k ∧ ∀ p ∈ R.repairs, ∑ c ∈ R.missingᶜ, s.coeff p c • d c = 0 := by
  have hsplit : ∀ p, ∑ c, s.coeff p c • d c =
      ∑ c ∈ R.missing, s.coeff p c • d c + ∑ c ∈ R.missingᶜ, s.coeff p c • d c :=
    fun p => (Finset.sum_add_sum_compl R.missing _).symm
  let known : Fin k → V := fun c => if c ∈ R.missing then d c else 0
  have hknown : ∀ p, ∑ c, s.coeff p c • known c = ∑ c ∈ R.missing, s.coeff p c • d c := by
    intro p
    simp only [known, smul_ite, smul_zero]
    rw [Finset.sum_ite_mem, Finset.univ_inter]
  have hunit : ∀ p j, R.kind p = some j → ∀ x : Fin k → V, ∑ c, s.coeff p c • x c = x j := by
    intro p j hj x
    simp only [R.unit_row hj, ite_smul, one_smul, zero_smul, Finset.sum_ite_eq', Finset.mem_univ,
      if_true]
  have hsolves : Solves s.coeff s.values known ↔
      ∀ p ∈ R.repairs, ∑ c ∈ R.missingᶜ, s.coeff p c • d c = 0 := by
    constructor
    · intro hs p hp
      have hrow := hs p
      rw [hknown, values, hdata p hp, Option.getD_some, hsplit p] at hrow
      exact left_eq_add.mp hrow
    · intro hz p
      cases hp : R.kind p with
      | none =>
          have hmem := R.mem_repairs.mpr hp
          rw [hknown, values, hdata p hmem, Option.getD_some, hsplit p, hz p hmem, add_zero]
      | some j =>
          have hj : j ∉ R.missing := fun h => R.mem_missing.mp h p hp
          rw [hunit p j hp, values, R.unit_payload hp]
          simp [known, hj]
  rw [← hsolves]
  constructor
  · intro hrec
    have hord : R.OrderedBelow k :=
      (R.isSome_missing_iff h).mp fun c hc => by rw [hrec c hc]; rfl
    refine ⟨hord, (R.solves_values_final h hord known).mpr ?_⟩
    have hfinal := (R.solves_values_final h hord t.values).mpr rfl
    funext c
    by_cases hc : c ∈ R.missing
    · simp [known, hc, values, hrec c hc]
    · obtain ⟨p, hp⟩ := R.exists_of_not_mem_missing hc
      have hrow := hfinal p
      rw [hunit p c hp, values, values, R.unit_payload hp] at hrow
      simp [known, hc, values, hrow]
  · rintro ⟨hord, hs⟩ c hc
    have hvalues := congrFun ((R.solves_values_final h hord known).mp hs) c
    obtain ⟨v, hv⟩ := Option.isSome_iff_exists.mp ((R.isSome_missing_iff h).mpr hord c hc)
    simp only [known, hc, if_true, values, hv, Option.getD_some] at hvalues
    rw [hv, hvalues]

end SystematicRows

end QuicFuscate.Framework
