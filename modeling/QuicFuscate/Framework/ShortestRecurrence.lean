import Mathlib.Algebra.BigOperators.Intervals
import Mathlib.Algebra.BigOperators.Ring.Finset
import Mathlib.Algebra.Field.Basic
import Mathlib.Tactic.Ring

/-!
# Shortest linear recurrences

The algorithm of Berlekamp and Massey keeps a shortest recurrence of the terms read so far together
with the one before the last change of order and the discrepancy at which that one failed.  A
correction adds the saved recurrence, moved to the distance from its failure and scaled so that the
two discrepancies cancel.  The first correction is placed one position early, which is right as long
as the sequence does not start with it.
-/

namespace QuicFuscate.Framework

open Finset

variable {K : Type} [Field K]

def residualAt (s c : ℕ → K) (l i : ℕ) : K := ∑ j ∈ range (l + 1), c j * s (i - j)

/-- The recurrence of order `l` holds for the first `n` terms. -/
def Generates (s c : ℕ → K) (l n : ℕ) : Prop := c 0 = 1 ∧ ∀ i, l ≤ i → i < n → residualAt s c l i = 0

/-- A recurrence of the least order. -/
def Shortest (s c : ℕ → K) (l n : ℕ) : Prop := Generates s c l n ∧ ∀ c' l', Generates s c' l' n → l ≤ l'

variable {s c b : ℕ → K} {l l' lb n i k : ℕ}

/-! ## Residuals -/

theorem residual_extend (hc : ∀ p, l < p → c p = 0) (hl : l ≤ l') (i : ℕ) :
    residualAt s c l' i = residualAt s c l i := by
  refine (sum_subset (range_mono (by omega)) ?_).symm
  intro j _ hj
  rw [hc j (by simpa [Nat.lt_succ_iff] using hj), zero_mul]

theorem residual_shift (hb : ∀ p, lb < p → b p = 0) (hl : k + lb ≤ l) (i : ℕ) :
    residualAt s (fun p => if k ≤ p then b (p - k) else 0) l i = residualAt s b lb (i - k) := by
  have hsplit : l + 1 = k + (l - k + 1) := by omega
  rw [residualAt, hsplit, sum_range_add, sum_eq_zero, zero_add, ← residual_extend hb (by omega : lb ≤ l - k),
    residualAt]
  · apply sum_congr rfl
    intro j _
    rw [if_pos (Nat.le_add_right k j), Nat.add_sub_cancel_left, Nat.sub_sub]
  · intro j hj
    rw [if_neg (by simpa using hj), zero_mul]

def adjusted (c b : ℕ → K) (e : K) (k p : ℕ) : K := c p + e * if k ≤ p then b (p - k) else 0

theorem residual_adjusted (hc : ∀ p, l < p → c p = 0) (hb : ∀ p, lb < p → b p = 0) (hl : l ≤ l') (hlb : k + lb ≤ l')
    (e : K) (i : ℕ) :
    residualAt s (adjusted c b e k) l' i = residualAt s c l i + e * residualAt s b lb (i - k) := by
  rw [← residual_extend hc hl, ← residual_shift hb hlb]
  simp only [residualAt, adjusted, add_mul, sum_add_distrib, mul_sum, mul_assoc]

theorem Generates.congr {s' c' : ℕ → K} (hs : ∀ i < n, s i = s' i) (hc : ∀ p ≤ l, c p = c' p)
    (h : Generates s c l n) : Generates s' c' l n := by
  refine ⟨hc 0 (Nat.zero_le l) ▸ h.1, fun i hi hin => ?_⟩
  rw [← h.2 i hi hin]
  apply sum_congr rfl
  intro j hj
  rw [hc j (Nat.lt_succ_iff.mp (mem_range.mp hj)), hs (i - j) (by omega)]

theorem Shortest.congr {s' c' : ℕ → K} (hs : ∀ i < n, s i = s' i) (hc : ∀ p ≤ l, c p = c' p)
    (h : Shortest s c l n) : Shortest s' c' l n :=
  ⟨h.1.congr hs hc, fun c' l' hgen => h.2 c' l' (hgen.congr (fun i hi => (hs i hi).symm) fun _ _ => rfl)⟩

theorem Generates.mono (h : Generates s c l n) {m : ℕ} (hm : m ≤ n) : Generates s c l m :=
  ⟨h.1, fun i hi him => h.2 i hi (him.trans_le hm)⟩

theorem Generates.succ (h : Generates s c l n) (hn : residualAt s c l n = 0) : Generates s c l (n + 1) := by
  refine ⟨h.1, fun i hi hin => ?_⟩
  rcases Nat.lt_succ_iff_lt_or_eq.mp hin with hlt | rfl
  · exact h.2 i hi hlt
  · exact hn

/-- A recurrence that fails at term `n` bounds the order of all that hold there: summing the products
of the coefficients of both in the two orders gives the residual of one and zero. -/
theorem Generates.lt_add_of_residual_ne (h : Generates s c l n) (hne : residualAt s c l n ≠ 0) {c' : ℕ → K}
    (h' : Generates s c' l' (n + 1)) : n < l + l' := by
  by_contra hle
  apply hne
  have hrows : ∀ j ∈ range (l + 1), ∑ k ∈ range (l' + 1), c j * c' k * s (n - j - k) = 0 := by
    intro j hj
    rw [mem_range] at hj
    have hzero := h'.2 (n - j) (by omega) (by omega)
    simp only [mul_assoc, ← mul_sum]
    rw [show ∑ k ∈ range (l' + 1), c' k * s (n - j - k) = 0 from hzero, mul_zero]
  have hcols : ∀ k ∈ range (l' + 1), k ≠ 0 → ∑ j ∈ range (l + 1), c j * c' k * s (n - j - k) = 0 := by
    intro k hk hk₀
    rw [mem_range] at hk
    have hzero := h.2 (n - k) (by omega) (by omega)
    have hterm : ∀ j, c j * c' k * s (n - j - k) = c' k * (c j * s (n - k - j)) := by
      intro j
      rw [Nat.sub_right_comm, mul_comm (c j) (c' k), mul_assoc]
    simp only [hterm, ← mul_sum]
    rw [show ∑ j ∈ range (l + 1), c j * s (n - k - j) = 0 from hzero, mul_zero]
  calc
    residualAt s c l n = ∑ j ∈ range (l + 1), c j * c' 0 * s (n - j - 0) := by
      apply sum_congr rfl
      intro j _
      rw [h'.1, mul_one, Nat.sub_zero]
    _ = ∑ k ∈ range (l' + 1), ∑ j ∈ range (l + 1), c j * c' k * s (n - j - k) :=
      (sum_eq_single_of_mem 0 (mem_range.mpr (Nat.succ_pos l')) hcols).symm
    _ = ∑ j ∈ range (l + 1), ∑ k ∈ range (l' + 1), c j * c' k * s (n - j - k) := sum_comm
    _ = 0 := sum_eq_zero hrows

/-- A recurrence that has held for as many terms as its order and that of another one together goes on
as long as the other does. -/
theorem Generates.extend {m : ℕ} (hb : Generates s b lb m) (hm : lb + l ≤ m) (h : Generates s c l n) :
    Generates s b lb n := by
  induction n with
  | zero => exact hb.mono (Nat.zero_le m)
  | succ n ih =>
      have hn := ih (h.mono (Nat.le_succ n))
      by_cases hlt : n < m
      · exact hb.mono hlt
      · apply hn.succ
        by_contra hne
        have hlong := hn.lt_add_of_residual_ne hne h
        omega

theorem residual_difference {c' : ℕ → K} {q : ℕ} (hq : q ≤ l) (heq : ∀ p < q, c p = c' p) (e : K) (i : ℕ) :
    residualAt s (fun p => (c (q + p) - c' (q + p)) * e) (l - q) i =
      (residualAt s c l (q + i) - residualAt s c' l (q + i)) * e := by
  have hsplit : l + 1 = q + (l - q + 1) := by omega
  have hdiff : residualAt s c l (q + i) - residualAt s c' l (q + i) =
      ∑ j ∈ range (l - q + 1), (c (q + j) - c' (q + j)) * s (i - j) := by
    rw [residualAt, residualAt, ← sum_sub_distrib, hsplit, sum_range_add, sum_eq_zero, zero_add]
    · apply sum_congr rfl
      intro j _
      rw [sub_mul, Nat.add_sub_add_left]
    · intro j hj
      rw [heq j (mem_range.mp hj), sub_self]
  rw [hdiff, residualAt, sum_mul]
  apply sum_congr rfl
  intro j _
  ring

/-- A sequence of twice as many terms as the least order has one shortest recurrence. -/
theorem Shortest.unique {c' : ℕ → K} (h : Shortest s c l n) (h' : Shortest s c' l n) (hn : 2 * l ≤ n) {p : ℕ}
    (hp : p ≤ l) : c p = c' p := by
  induction p using Nat.strong_induction_on with
  | _ q ih =>
      by_contra hne
      have hpos : 0 < q := by
        by_contra hzero
        rw [Nat.eq_zero_of_not_pos hzero, h.1.1, h'.1.1] at hne
        exact hne rfl
      -- the difference, moved to its first coefficient, is a recurrence of a lower order
      have hdiff : Generates s (fun p => (c (q + p) - c' (q + p)) * (c q - c' q)⁻¹) (l - q) (n - q) := by
        refine ⟨mul_inv_cancel₀ (sub_ne_zero.mpr hne), fun i hi hin => ?_⟩
        rw [residual_difference hp (fun p hpq => ih p hpq (by omega)), h.1.2 _ (by omega) (by omega),
          h'.1.2 _ (by omega) (by omega), sub_self, zero_mul]
      have hshort := h.2 _ _ (hdiff.extend (by omega) h.1)
      omega

/-! ## The algorithm -/

/-- The current recurrence and its order, and the one before the last change of order with the
position and the discrepancy at which it failed. -/
structure Massey (K : Type) where
  c : ℕ → K
  b : ℕ → K
  l : ℕ
  m : ℕ
  δ : K

namespace Massey

def start : Massey K := ⟨Pi.single 0 1, Pi.single 0 1, 0, 0, 1⟩

def corrected (s : ℕ → K) (r : Massey K) (i : ℕ) : ℕ → K :=
  adjusted r.c r.b (-(residualAt s r.c r.l i / r.δ)) (i - r.m)

/-- The saved recurrence, once there is one. -/
structure Saved (s : ℕ → K) (i : ℕ) (r : Massey K) : Prop where
  l_pos : 0 < r.l
  m_lt : r.m < i
  l_le : r.l ≤ r.m + 1
  b_zero : ∀ p, r.m + 1 - r.l < p → r.b p = 0
  generates : Generates s r.b (r.m + 1 - r.l) r.m
  residual_eq : residualAt s r.b (r.m + 1 - r.l) r.m = r.δ
  δ_ne : r.δ ≠ 0

structure Correct (s : ℕ → K) (i : ℕ) (r : Massey K) : Prop where
  c_zero : ∀ p, r.l < p → r.c p = 0
  shortest : Shortest s r.c r.l i
  saved : r = start ∨ Saved s i r

variable {r : Massey K}

theorem Saved.mono (h : Saved s i r) : Saved s (i + 1) r := { h with m_lt := Nat.lt_succ_of_lt h.m_lt }

/-- A multiple of the saved recurrence changes the residual at term `i` only. -/
theorem Saved.residual_adjusted (h : Saved s i r) (hc : ∀ p, r.l < p → r.c p = 0) (hl : r.l ≤ l')
    (hi : i + 1 - r.l ≤ l') (e : K) {t : ℕ} (ht : l' ≤ t) (hti : t ≤ i) :
    residualAt s (adjusted r.c r.b e (i - r.m)) l' t = residualAt s r.c r.l t + if t = i then e * r.δ else 0 := by
  have hm := h.m_lt
  have hle := h.l_le
  rw [Framework.residual_adjusted hc h.b_zero hl (by omega)]
  congr 1
  rcases Nat.lt_or_eq_of_le hti with hlt | rfl
  · rw [if_neg hlt.ne, h.generates.2 (t - (i - r.m)) (by omega) (by omega), mul_zero]
  · rw [if_pos rfl, show t - (t - r.m) = r.m by omega, h.residual_eq]

theorem Saved.adjusted_zero (h : Saved s i r) (hc : ∀ p, r.l < p → r.c p = 0) (hl : r.l ≤ l')
    (hi : i + 1 - r.l ≤ l') (e : K) {p : ℕ} (hp : l' < p) : adjusted r.c r.b e (i - r.m) p = 0 := by
  have hm := h.m_lt
  have hle := h.l_le
  have hb : (if i - r.m ≤ p then r.b (p - (i - r.m)) else 0) = 0 := by
    split
    · exact h.b_zero _ (by omega)
    · rfl
  rw [adjusted, hc p (by omega), hb, mul_zero, add_zero]

theorem adjusted_head (c b : ℕ → K) (e : K) (hk : 0 < k) : adjusted c b e k 0 = c 0 := by
  rw [adjusted, if_neg (by omega), mul_zero, add_zero]

theorem Saved.corrected_generates (h : Saved s i r) (hc : ∀ p, r.l < p → r.c p = 0) (hgen : Generates s r.c r.l i)
    (hl : r.l ≤ l') (hi : i + 1 - r.l ≤ l') : Generates s (r.corrected s i) l' (i + 1) := by
  have hm := h.m_lt
  refine ⟨(adjusted_head _ _ _ (by omega)).trans hgen.1, fun t ht hti => ?_⟩
  rw [corrected, h.residual_adjusted hc hl hi _ ht (by omega)]
  rcases Nat.lt_succ_iff_lt_or_eq.mp hti with hlt | rfl
  · rw [if_neg hlt.ne, hgen.2 t (by omega) hlt, add_zero]
  · rw [if_pos rfl, neg_mul, div_mul_cancel₀ _ h.δ_ne, add_neg_cancel]

theorem Correct.saved_change (h : Correct s i r) (hi : 2 * r.l ≤ i) (hne : residualAt s r.c r.l i ≠ 0) (c' : ℕ → K) :
    Saved s (i + 1) ⟨c', r.c, i + 1 - r.l, i, residualAt s r.c r.l i⟩ := by
  have horder : i + 1 - (i + 1 - r.l) = r.l := by omega
  exact
    { l_pos := by dsimp only; omega
      m_lt := Nat.lt_succ_self i
      l_le := Nat.sub_le _ _
      b_zero := by
        dsimp only
        rw [horder]
        exact h.c_zero
      generates := by
        dsimp only
        rw [horder]
        exact h.shortest.1
      residual_eq := by
        dsimp only
        rw [horder]
      δ_ne := hne }

theorem correct_start (s : ℕ → K) : Correct s 0 start where
  c_zero p hp := Pi.single_eq_of_ne (Nat.pos_iff_ne_zero.mp hp) 1
  shortest := by
    have hone : (start : Massey K).c 0 = 1 := by simp [start]
    exact ⟨⟨hone, fun i _ hi => absurd hi (Nat.not_lt_zero i)⟩, fun _ _ _ => Nat.zero_le _⟩
  saved := .inl rfl

theorem residual_start (s : ℕ → K) (i : ℕ) : residualAt s (start : Massey K).c (start : Massey K).l i = s i := by
  simp [residualAt, start]

/-! ## Runs -/

variable [DecidableEq K]

def next (s : ℕ → K) (r : Massey K) (i : ℕ) : Massey K :=
  if residualAt s r.c r.l i = 0 then r
  else if 2 * r.l ≤ i then ⟨r.corrected s i, r.c, i + 1 - r.l, i, residualAt s r.c r.l i⟩
  else { r with c := r.corrected s i }

def upTo (s : ℕ → K) (i : ℕ) : Massey K := (List.range i).foldl (next s) start

theorem upTo_succ (s : ℕ → K) (i : ℕ) : upTo s (i + 1) = next s (upTo s i) i := by
  rw [upTo, List.range_succ, List.foldl_append]
  rfl

/-- The first correction is arbitrary, as the recurrence is then as long as the sequence. -/
theorem correct_first (hs : s 0 = 0) (h : Correct s i start) (hne : s i ≠ 0) : Correct s (i + 1) (next s start i) := by
  have hres := residual_start s i
  have hi : 0 < i := by
    by_contra hzero
    rw [Nat.eq_zero_of_not_pos hzero] at hne
    exact hne hs
  have hne' : residualAt s (start : Massey K).c (start : Massey K).l i ≠ 0 := hres ▸ hne
  have hnext : next s start i = ⟨corrected s start i, start.c, i + 1, i, s i⟩ := by
    rw [next, if_neg hne', if_pos (show 2 * (start : Massey K).l ≤ i from Nat.zero_le i), hres]
    rfl
  have hsaved := h.saved_change (Nat.zero_le i) hne' (corrected s start i)
  rw [hres] at hsaved
  rw [hnext]
  refine ⟨?_, ⟨⟨?_, fun t ht hti => absurd ht (by dsimp only; omega)⟩, fun c' l' hgen => ?_⟩, .inr hsaved⟩
  · intro p hp
    have hp : i + 1 < p := hp
    have hfar : (start : Massey K).b (p - (i - (start : Massey K).m)) = 0 :=
      Pi.single_eq_of_ne (by simp only [start]; omega) 1
    have hend : (start : Massey K).c p = 0 := Pi.single_eq_of_ne (by omega) 1
    dsimp only [corrected, adjusted]
    rw [hfar, hend, ite_self, mul_zero, add_zero]
  · exact (adjusted_head _ _ _ hi).trans h.shortest.1.1
  · have hlong := h.shortest.1.lt_add_of_residual_ne hne' hgen
    simpa [start] using hlong

theorem Correct.next (hs : s 0 = 0) (h : Correct s i r) : Correct s (i + 1) (r.next s i) := by
  by_cases hzero : residualAt s r.c r.l i = 0
  · rw [Massey.next, if_pos hzero]
    exact ⟨h.c_zero, ⟨h.shortest.1.succ hzero, fun c' l' hgen => h.shortest.2 c' l' (hgen.mono (Nat.le_succ i))⟩,
      h.saved.imp_right Saved.mono⟩
  rcases h.saved with rfl | hsaved
  · exact correct_first hs h (residual_start s i ▸ hzero)
  rw [Massey.next, if_neg hzero]
  split
  · rename_i hchange
    have hroom : r.l ≤ i + 1 - r.l := by omega
    refine ⟨fun p => hsaved.adjusted_zero h.c_zero hroom le_rfl _, ⟨?_, fun c' l' hgen => ?_⟩,
      .inr (h.saved_change hchange hzero _)⟩
    · exact hsaved.corrected_generates h.c_zero h.shortest.1 hroom le_rfl
    · have hlong := h.shortest.1.lt_add_of_residual_ne hzero hgen
      dsimp only
      omega
  · rename_i hsame
    have hroom : i + 1 - r.l ≤ r.l := by omega
    refine ⟨fun p => hsaved.adjusted_zero h.c_zero le_rfl hroom _, ⟨?_, fun c' l' hgen => ?_⟩,
      .inr { hsaved.mono with }⟩
    · exact hsaved.corrected_generates h.c_zero h.shortest.1 le_rfl hroom
    · exact h.shortest.2 c' l' (hgen.mono (Nat.le_succ i))

theorem correct_upTo (hs : s 0 = 0) (i : ℕ) : Correct s i (upTo s i) := by
  induction i with
  | zero => exact correct_start s
  | succ i ih =>
      rw [upTo_succ]
      exact ih.next hs

end Massey

end QuicFuscate.Framework
