import QuicFuscate.Fec.Proofs.Recurrence
import QuicFuscate.Framework.ShortestRecurrence

/-!
# When the polynomial solver finds the shortest recurrence

The loop of `berlekamp_massey` places its first correction one position early and divides by the
constant coefficient of the saved polynomial, which is one, instead of the saved discrepancy.  For a
sequence that starts with zero it follows the algorithm of Berlekamp and Massey as long as every
correction meets a saved discrepancy of one; the first correction that does not leaves its term
uncancelled.
-/

namespace QuicFuscate.Fec

open Framework GF256

def symbols (s : List UInt8) (i : ℕ) : GF256 := mk (s.getD i 0)

/-- `berlekamp_massey` returns a shortest recurrence. -/
def FindsShortest (B : ℕ) (s : List UInt8) : Prop :=
  ∃ poly, berlekampMassey ⟨.scalar, B⟩ s = .ok (some poly) ∧
    ∃ l, poly.length = l + 1 ∧ Shortest (symbols s) (symbols poly) l s.length

/-- Term `i` needs no correction, or one with a saved discrepancy of one. -/
def DividesRight (σ : ℕ → GF256) (i : ℕ) : Prop :=
  residualAt σ (Massey.upTo σ i).c (Massey.upTo σ i).l i ≠ 0 → (Massey.upTo σ i).δ = 1

variable {σ : ℕ → GF256} {g : Massey GF256} {n i : ℕ}

/-! ## One step -/

/-- The part of a state that the loop keeps. -/
def forget (g : Massey GF256) : Recurrence GF256 := ⟨g.c, g.b, g.l, g.m⟩

private theorem defect_eq_residual {r : Recurrence GF256} (hc : r.c 0 = 1) (σ : ℕ → GF256) (i : ℕ) :
    r.defect σ i = residualAt σ r.c r.l i := by
  rw [Recurrence.defect, residualAt, Finset.sum_range_succ', hc, one_mul, Nat.sub_zero, add_comm,
    Finset.sum_range fun j => r.c (j + 1) * σ (i - (j + 1))]

private theorem correct_eq_adjusted {r : Recurrence GF256} (hr : ∀ p, i + 1 ≤ p → r.b (p - (i - r.m)) = 0) (hi : i < n)
    (d : GF256) : r.correct n d i = adjusted r.c r.b (d / r.b 0) (i - r.m) := by
  funext p
  rw [Recurrence.correct, adjusted]
  by_cases hp : i - r.m ≤ p
  · rw [if_pos hp]
    split
    · rfl
    · rw [hr p (by omega), mul_zero, add_zero]
  · rw [if_neg hp, if_neg (fun h => hp h.1), mul_zero, add_zero]

private theorem correct_forget (h : Massey.Correct σ i g) (hi : i < n) (d : GF256) :
    (forget g).correct n d i = adjusted g.c g.b d (i - g.m) := by
  have hb : g.b 0 = 1 ∧ ∀ p, i + 1 ≤ p → g.b (p - (i - g.m)) = 0 := by
    rcases h.saved with rfl | hsaved
    · refine ⟨by simp [Massey.start], fun p hp => Pi.single_eq_of_ne (by simp only [Massey.start]; omega) 1⟩
    · have hm := hsaved.m_lt
      have hpos := hsaved.l_pos
      exact ⟨hsaved.generates.1, fun p hp => hsaved.b_zero _ (by omega)⟩
  rw [correct_eq_adjusted hb.2 hi]
  change adjusted g.c g.b (d / g.b 0) (i - g.m) = _
  rw [hb.1, div_one]

private theorem neg_eq (a : GF256) : -a = a := rfl

private theorem forget_next (h : Massey.Correct σ i g) (hi : i < n) (hright : residualAt σ g.c g.l i ≠ 0 → g.δ = 1) :
    (forget g).next n σ i = forget (g.next σ i) := by
  have hd : (forget g).defect σ i = residualAt σ g.c g.l i := defect_eq_residual h.shortest.1.1 σ i
  rw [Recurrence.next, Massey.next, hd]
  by_cases hzero : residualAt σ g.c g.l i = 0
  · rw [if_pos hzero, if_pos hzero]
  · have hcorrect : (forget g).correct n (residualAt σ g.c g.l i) i = g.corrected σ i := by
      rw [correct_forget h hi, Massey.corrected, hright hzero, div_one, neg_eq]
    rw [if_neg hzero, if_neg hzero, hcorrect]
    change (if 2 * g.l ≤ i then _ else _) = _
    split <;> rfl

private theorem upTo_eq_forget (hσ : σ 0 = 0) (hi : i ≤ n) (hright : ∀ t < i, DividesRight σ t) :
    Recurrence.upTo n σ i = forget (Massey.upTo σ i) := by
  induction i with
  | zero => rfl
  | succ i ih =>
      rw [Recurrence.upTo_succ, Massey.upTo_succ, ih (by omega) fun t ht => hright t (by omega)]
      exact forget_next (Massey.correct_upTo hσ i) (by omega) (hright i (by omega))

/-! ## After a wrong division -/

/-- The orders of the two polynomials, once the order has changed. -/
structure Paired (k : ℕ) (r : Recurrence GF256) : Prop where
  m_lt : r.m < k
  l_pos : 0 < r.l
  l_le : r.l ≤ r.m + 1
  c_head : r.c 0 = 1
  c_zero : ∀ p, r.l < p → r.c p = 0
  b_zero : ∀ p, r.m + 1 - r.l < p → r.b p = 0

variable {r : Recurrence GF256} {k : ℕ}

private theorem next_saved (hk : r.defect σ k ≠ 0) :
    (r.next n σ k).c = r.correct n (r.defect σ k) k ∧
      (2 * r.l ≤ k ∧ (r.next n σ k).b = r.c ∧ (r.next n σ k).m = k ∧ (r.next n σ k).l = k + 1 - r.l ∨
        k < 2 * r.l ∧ (r.next n σ k).b = r.b ∧ (r.next n σ k).m = r.m ∧ (r.next n σ k).l = r.l) := by
  rw [Recurrence.next, if_neg hk]
  split
  · rename_i hchange
    exact ⟨rfl, .inl ⟨hchange, rfl, rfl, rfl⟩⟩
  · rename_i hsame
    exact ⟨rfl, .inr ⟨by omega, rfl, rfl, rfl⟩⟩

private theorem next_l_ge (hk : r.defect σ k ≠ 0) : r.l ≤ (r.next n σ k).l ∧ k + 1 - r.l ≤ (r.next n σ k).l := by
  obtain ⟨-, ⟨hchange, -, -, hl⟩ | ⟨hsame, -, -, hl⟩⟩ := next_saved (n := n) hk
  · omega
  · omega

theorem Paired.correct_eq (h : Paired k r) (hk : k < n) (d : GF256) :
    r.correct n d k = adjusted r.c r.b (d / r.b 0) (k - r.m) := by
  have hm := h.m_lt
  have hpos := h.l_pos
  exact correct_eq_adjusted (fun p hp => h.b_zero _ (by omega)) hk d

theorem Paired.next (h : Paired k r) (hk : k < n) : Paired (k + 1) (r.next n σ k) := by
  have hm := h.m_lt
  have hle := h.l_le
  by_cases hd : r.defect σ k = 0
  · rw [Recurrence.next, if_pos hd]
    exact { h with m_lt := Nat.lt_succ_of_lt hm }
  have hhead : r.correct n (r.defect σ k) k 0 = 1 := by
    rw [h.correct_eq hk, Massey.adjusted_head _ _ _ (by omega), h.c_head]
  have hzero : ∀ p, r.l < p → k + 1 - r.l < p → r.correct n (r.defect σ k) k p = 0 := by
    intro p hp hp'
    rw [h.correct_eq hk, adjusted, h.c_zero p hp, zero_add]
    split
    · rw [h.b_zero (p - (k - r.m)) (by omega), mul_zero]
    · exact mul_zero _
  obtain ⟨hc, ⟨hchange, hb, hm', hl⟩ | ⟨hsame, hb, hm', hl⟩⟩ := next_saved (n := n) hd
  · exact
      { m_lt := by omega
        l_pos := by omega
        l_le := by omega
        c_head := by rw [hc, hhead]
        c_zero := fun p hp => by rw [hc, hzero p (by omega) (by omega)]
        b_zero := fun p hp => by rw [hb, h.c_zero p (by omega)] }
  · exact
      { m_lt := by omega
        l_pos := by omega
        l_le := by omega
        c_head := by rw [hc, hhead]
        c_zero := fun p hp => by rw [hc, hzero p (by omega) (by omega)]
        b_zero := fun p hp => by rw [hb, h.b_zero p (by omega)] }

theorem Paired.next_l_le (h : Paired k r) : (r.next n σ k).l ≤ k := by
  have hm := h.m_lt
  have hpos := h.l_pos
  have hle := h.l_le
  by_cases hd : r.defect σ k = 0
  · rw [Recurrence.next, if_pos hd]
    omega
  · obtain ⟨-, ⟨hchange, -, -, hl⟩ | ⟨hsame, -, -, hl⟩⟩ := next_saved (n := n) hd
    · omega
    · omega

theorem Paired.next_residual (h : Paired k r) (hk : k < n) (hd : r.defect σ k ≠ 0) (t : ℕ) :
    residualAt σ (r.next n σ k).c (r.next n σ k).l t =
      residualAt σ r.c r.l t + r.defect σ k / r.b 0 * residualAt σ r.b (r.m + 1 - r.l) (t - (k - r.m)) := by
  have hm := h.m_lt
  have hle := h.l_le
  have hroom := next_l_ge (n := n) hd
  rw [(next_saved (n := n) hd).1, h.correct_eq hk]
  exact residual_adjusted h.c_zero h.b_zero hroom.1 (by omega) _ t

/-- Term `i` is left uncancelled for as long as it is in the range of the recurrence. -/
structure Spoiled (σ : ℕ → GF256) (i k : ℕ) (r : Recurrence GF256) : Prop extends Paired k r where
  b_below : ∀ t, r.m + 1 - r.l ≤ t → t < r.m → t < i → residualAt σ r.b (r.m + 1 - r.l) t = 0
  c_below : ∀ t, r.l ≤ t → t < i → residualAt σ r.c r.l t = 0
  c_at : r.l ≤ i → residualAt σ r.c r.l i ≠ 0

theorem Spoiled.next (h : Spoiled σ i k r) (hik : i < k) (hk : k < n) : Spoiled σ i (k + 1) (r.next n σ k) := by
  have hm := h.m_lt
  have hle := h.l_le
  have hpaired : Paired (k + 1) (r.next n σ k) := h.toPaired.next hk
  by_cases hd : r.defect σ k = 0
  · rw [Recurrence.next, if_pos hd] at hpaired ⊢
    exact ⟨hpaired, h.b_below, h.c_below, h.c_at⟩
  have hroom := next_l_ge (n := n) hd
  -- what is added has no residual at the terms up to the `i`th
  have hkeep : ∀ t, (r.next n σ k).l ≤ t → t ≤ i →
      residualAt σ (r.next n σ k).c (r.next n σ k).l t = residualAt σ r.c r.l t := by
    intro t ht hti
    rw [h.next_residual hk hd, h.b_below _ (by omega) (by omega) (by omega), mul_zero, add_zero]
  refine ⟨hpaired, ?_, fun t ht hti => (hkeep t ht hti.le).trans (h.c_below t (by omega) hti),
    fun hi => hkeep i hi le_rfl ▸ h.c_at (by omega)⟩
  obtain ⟨-, ⟨hchange, hb, hm', hl⟩ | ⟨hsame, hb, hm', hl⟩⟩ := next_saved (n := n) hd
  · have horder : (r.next n σ k).m + 1 - (r.next n σ k).l = r.l := by omega
    rw [horder, hb]
    exact fun t ht _ hti => h.c_below t ht hti
  · rw [hb, hm', hl]
    exact h.b_below

private theorem paired_forget (h : Massey.Correct σ k g) (hsaved : Massey.Saved σ k g) : Paired k (forget g) where
  m_lt := hsaved.m_lt
  l_pos := hsaved.l_pos
  l_le := hsaved.l_le
  c_head := h.shortest.1.1
  c_zero := h.c_zero
  b_zero := hsaved.b_zero

private theorem spoiled_next (h : Massey.Correct σ i g) (hi : i < n) (hne : residualAt σ g.c g.l i ≠ 0) (hδ : g.δ ≠ 1) :
    Spoiled σ i (i + 1) ((forget g).next n σ i) := by
  have hsaved : Massey.Saved σ i g := by
    rcases h.saved with rfl | hsaved
    · exact absurd rfl hδ
    · exact hsaved
  have hpaired := paired_forget h hsaved
  have hd : (forget g).defect σ i = residualAt σ g.c g.l i := defect_eq_residual h.shortest.1.1 σ i
  have hd₀ : (forget g).defect σ i ≠ 0 := hd ▸ hne
  obtain ⟨hc, hcases⟩ := next_saved (n := n) hd₀
  have hroom : g.l ≤ ((forget g).next n σ i).l ∧ i + 1 - g.l ≤ ((forget g).next n σ i).l := next_l_ge hd₀
  have hkeep : ∀ t, ((forget g).next n σ i).l ≤ t → t ≤ i →
      residualAt σ ((forget g).next n σ i).c ((forget g).next n σ i).l t =
        residualAt σ g.c g.l t + if t = i then residualAt σ g.c g.l i * g.δ else 0 := by
    intro t ht hti
    rw [hc, correct_forget h hi, hd]
    exact hsaved.residual_adjusted h.c_zero hroom.1 hroom.2 _ ht hti
  have hbelow : ∀ t, ((forget g).next n σ i).l ≤ t → t < i →
      residualAt σ ((forget g).next n σ i).c ((forget g).next n σ i).l t = 0 := by
    intro t ht hti
    rw [hkeep t ht hti.le, if_neg hti.ne, add_zero]
    exact h.shortest.1.2 t (by omega) hti
  have hat : ((forget g).next n σ i).l ≤ i →
      residualAt σ ((forget g).next n σ i).c ((forget g).next n σ i).l i ≠ 0 := by
    intro hl
    have hfactor : residualAt σ g.c g.l i + residualAt σ g.c g.l i * g.δ = residualAt σ g.c g.l i * (g.δ - 1) := by
      rw [sub_eq_add_neg, neg_eq]
      ring
    rw [hkeep i hl le_rfl, if_pos rfl, hfactor]
    exact mul_ne_zero hne (sub_ne_zero.mpr hδ)
  refine ⟨hpaired.next hi, ?_, hbelow, hat⟩
  rcases hcases with ⟨hchange, hb, hm', hl⟩ | ⟨hsame, hb, hm', hl⟩
  · have horder : ((forget g).next n σ i).m + 1 - ((forget g).next n σ i).l = g.l := by
      dsimp only [forget] at hchange hm' hl ⊢
      omega
    rw [horder, hb]
    exact fun t ht _ hti => h.shortest.1.2 t ht hti
  · rw [hb, hm', hl]
    exact fun t ht htm _ => hsaved.generates.2 t ht htm

private theorem spoiled_upTo (hσ : σ 0 = 0) (hi : i < n) (hright : ∀ t < i, DividesRight σ t)
    (hwrong : ¬DividesRight σ i) (hik : i < k) (hk : k ≤ n) : Spoiled σ i k (Recurrence.upTo n σ k) := by
  induction k with
  | zero => omega
  | succ k ih =>
      rw [Recurrence.upTo_succ]
      rcases Nat.lt_succ_iff_lt_or_eq.mp hik with hlt | rfl
      · exact (ih hlt (by omega)).next hlt (by omega)
      · rw [upTo_eq_forget hσ hi.le hright]
        simp only [DividesRight, Classical.not_imp] at hwrong
        exact spoiled_next (Massey.correct_upTo hσ i) hi hwrong.1 hwrong.2

/-! ## The loop -/

variable {B : ℕ} {s : List UInt8}

private theorem constCoeff_scalar (x : UInt8) : constCoeff .scalar x = 1 ^^^ x := by
  rw [constCoeff, gfMul_scalar, gfMul_scalar, gfMulTable_one, gfMulTable_one]

private theorem berlekampMassey_returns (hs : s.getD 0 0 = 0) :
    ∃ poly, berlekampMassey ⟨.scalar, B⟩ s = .ok (some poly) := by
  have hconst : constCoeff (Platform.policy ⟨.scalar, B⟩) (s.getD 0 0) ≠ 0 := by
    rw [hs, constCoeff_scalar]
    decide
  obtain ⟨r, hr⟩ := berlekampMassey_ok hconst
  obtain ⟨st, -, hpoly⟩ := bind_eq_ok.mp hr
  exact ⟨_, hr.trans (by rw [← hpoly]; rfl)⟩

private theorem findsShortest_iff (hσ : ∀ t < s.length, symbols s t = σ t) (hs : s.getD 0 0 = 0) :
    FindsShortest B s ↔
      Shortest σ (Recurrence.upTo s.length σ s.length).c (Recurrence.upTo s.length σ s.length).l s.length := by
  obtain ⟨poly, hpoly⟩ := berlekampMassey_returns (B := B) hs
  obtain ⟨hlen, hcoeff⟩ := berlekampMassey_eq hσ hpoly
  constructor
  · rintro ⟨poly', hpoly', l, hl, hshortest⟩
    rw [hpoly] at hpoly'
    cases hpoly'
    obtain rfl : (Recurrence.upTo s.length σ s.length).l = l := by omega
    exact hshortest.congr hσ fun p hp => hcoeff p (by omega)
  · intro hshortest
    exact ⟨poly, hpoly, _, hlen, hshortest.congr (fun t ht => (hσ t ht).symm) fun p hp => (hcoeff p (by omega)).symm⟩

theorem FindsShortest.head_eq_zero (h : FindsShortest B s) : s.getD 0 0 = 0 := by
  by_cases hnil : s = []
  · rw [hnil, List.getD_nil]
  obtain ⟨poly, hpoly, l, -, hshortest⟩ := h
  obtain ⟨poly', heq, -, hconst, -⟩ := berlekampMassey_completed hnil hpoly
  cases heq
  have hhead : poly.getD 0 0 = 1 := mk_injective (hshortest.1.1.trans mk_one.symm)
  have hzero := congrArg mk (hhead.symm.trans (hconst.trans (constCoeff_scalar _)))
  rw [mk_xor, left_eq_add] at hzero
  exact mk_eq_zero.mp hzero

/-- The sequence starts with zero, and every correction that the algorithm of Berlekamp and Massey makes
on it meets a saved discrepancy of one. -/
def UnitDiscrepancies (s : List UInt8) : Prop :=
  s.getD 0 0 = 0 ∧ ∀ i < s.length, DividesRight (symbols s) i

theorem shortest_of_dividesRight (hσ : σ 0 = 0) (hright : ∀ t < n, DividesRight σ t) :
    Shortest σ (Recurrence.upTo n σ n).c (Recurrence.upTo n σ n).l n := by
  rw [upTo_eq_forget hσ le_rfl hright]
  exact (Massey.correct_upTo hσ n).shortest

/-- After a wrong division the result can only be right if its order has passed the term. -/
private theorem lt_of_shortest (hσ : σ 0 = 0) (hi : i < n) (hright : ∀ t < i, DividesRight σ t)
    (hwrong : ¬DividesRight σ i)
    (h : Shortest σ (Recurrence.upTo n σ n).c (Recurrence.upTo n σ n).l n) : i < (Recurrence.upTo n σ n).l := by
  by_contra hle
  have hspoiled := spoiled_upTo hσ hi hright hwrong hi le_rfl
  exact hspoiled.c_at (by omega) (h.1.2 i (by omega) hi)

private theorem not_shortest_prefix (hσ : σ 0 = 0) (hright : ∀ t < i, DividesRight σ t) (hwrong : ¬DividesRight σ i) :
    ¬Shortest σ (Recurrence.upTo (i + 1) σ (i + 1)).c (Recurrence.upTo (i + 1) σ (i + 1)).l (i + 1) := by
  intro h
  have hlt := lt_of_shortest hσ (Nat.lt_add_one i) hright hwrong h
  have hcorrect := Massey.correct_upTo hσ i
  rcases hcorrect.saved with hstart | hsaved
  · exact hwrong fun _ => by rw [hstart]; rfl
  · rw [Recurrence.upTo_succ, upTo_eq_forget hσ (Nat.le_succ i) hright] at hlt
    exact absurd hlt (not_lt.mpr (paired_forget hcorrect hsaved).next_l_le)

private theorem symbols_take {k t : ℕ} (ht : t < (s.take k).length) : symbols (s.take k) t = symbols s t := by
  rw [List.length_take] at ht
  rw [symbols, symbols, List.getD_eq_getElem?_getD, List.getElem?_take_of_lt (by omega), List.getD_eq_getElem?_getD]

private theorem head_take (hs : s.getD 0 0 = 0) (k : ℕ) : (s.take k).getD 0 0 = 0 := by
  cases s with
  | nil => simp
  | cons x xs =>
      cases k with
      | zero => rfl
      | succ k => exact hs

private theorem findsShortest_take_iff (hs : s.getD 0 0 = 0) {k : ℕ} (hk : k ≤ s.length) :
    FindsShortest B (s.take k) ↔
      Shortest (symbols s) (Recurrence.upTo k (symbols s) k).c (Recurrence.upTo k (symbols s) k).l k := by
  have hiff := findsShortest_iff (B := B) (s := s.take k) (fun t ht => symbols_take ht) (head_take hs k)
  rwa [List.length_take_of_le hk] at hiff

/-- `berlekamp_massey` finds a shortest recurrence if the sequence starts with zero and every correction
meets a saved discrepancy of one, and it does so for all prefixes only then.  It never does for a
sequence that starts with another term, nor when the first correction that breaks the condition is at
a term in the range of the shortest recurrences. -/
theorem berlekampMassey_shortest_iff (B : ℕ) (s : List UInt8) :
    (UnitDiscrepancies s → FindsShortest B s) ∧
      ((∀ k ≤ s.length, FindsShortest B (s.take k)) ↔ UnitDiscrepancies s) ∧
      (FindsShortest B s → s.getD 0 0 = 0 ∧ ∀ i < s.length, (∀ t < i, DividesRight (symbols s) t) →
        ¬DividesRight (symbols s) i → ∀ c l, Shortest (symbols s) c l s.length → i < l) := by
  have hσ : s.getD 0 0 = 0 → symbols s 0 = 0 := mk_eq_zero.mpr
  have hfull : FindsShortest B (s.take s.length) ↔ FindsShortest B s := by rw [List.take_length]
  have hprefixes : UnitDiscrepancies s → ∀ k ≤ s.length, FindsShortest B (s.take k) := by
    rintro ⟨hs, hright⟩ k hk
    rw [findsShortest_take_iff hs hk]
    exact shortest_of_dividesRight (hσ hs) fun t ht => hright t (by omega)
  refine ⟨fun h => hfull.mp (hprefixes h _ le_rfl), ⟨fun hall => ?_, hprefixes⟩, fun h => ?_⟩
  · have hs := (hfull.mp (hall _ le_rfl)).head_eq_zero
    refine ⟨hs, fun i => ?_⟩
    -- the prefix that ends with the first wrong division would be wrong
    induction i using Nat.strong_induction_on with
    | _ i ih =>
        intro hi
        by_contra hwrong
        exact not_shortest_prefix (hσ hs) (fun t ht => ih t ht (by omega)) hwrong
          ((findsShortest_take_iff hs hi).mp (hall (i + 1) hi))
  · have hs := h.head_eq_zero
    refine ⟨hs, fun i hi hright hwrong c l hshortest => ?_⟩
    have hfound := (findsShortest_iff (fun _ _ => rfl) hs).mp h
    exact (lt_of_shortest (hσ hs) hi hright hwrong hfound).trans_le (hfound.2 c l hshortest.1)

/-- The sequence `0 1 1` has one change of order, at a discrepancy of one, and one correction after it. -/
theorem berlekampMassey_shortest_iff_unit : UnitDiscrepancies [0, 1, 1] ∧ FindsShortest 4 [0, 1, 1] := by
  have hfirst : Massey.upTo (symbols [0, 1, 1]) 1 = Massey.start := by
    rw [Massey.upTo_succ]
    exact if_pos (Massey.residual_start _ _)
  have hsecond : (Massey.upTo (symbols [0, 1, 1]) 2).δ = 1 := by
    have hres : residualAt (symbols [0, 1, 1]) Massey.start.c Massey.start.l 1 = 1 := Massey.residual_start _ _
    rw [Massey.upTo_succ, hfirst, Massey.next, hres, if_neg one_ne_zero]
    rfl
  have hunit : UnitDiscrepancies [0, 1, 1] := by
    refine ⟨rfl, fun i hi _ => ?_⟩
    have hi : i < 3 := hi
    obtain rfl | rfl | rfl : i = 0 ∨ i = 1 ∨ i = 2 := by omega
    · rfl
    · rw [hfirst]
      rfl
    · exact hsecond
  exact ⟨hunit, (berlekampMassey_shortest_iff 4 [0, 1, 1]).1 hunit⟩

/-- The sequence `2` gives the constant coefficient 3, on `0 2 1` the division by one instead of 2 leaves
the last term uncancelled, and on `1 0 1 1` the loop divides by zero. -/
theorem berlekampMassey_not_shortest :
    berlekampMassey ⟨.scalar, 4⟩ [2] = .ok (some [3, 0]) ∧ ¬FindsShortest 4 [2] ∧
      berlekampMassey ⟨.scalar, 4⟩ [0, 2, 1] = .ok (some [1, 7, 0]) ∧ ¬FindsShortest 4 [0, 2, 1] ∧
      berlekampMassey ⟨.scalar, 4⟩ [1, 0, 1, 1] = .error .inverseOfZero := by
  have hpoly : berlekampMassey ⟨.scalar, 4⟩ [0, 2, 1] = .ok (some [1, 7, 0]) := by decide +kernel
  refine ⟨by decide +kernel, fun h => absurd h.head_eq_zero (by decide), hpoly, ?_, by decide +kernel⟩
  rintro ⟨poly, heq, l, hlen, hshortest⟩
  rw [hpoly] at heq
  cases heq
  obtain rfl : l = 2 := by
    simp only [List.length_cons, List.length_nil] at hlen
    omega
  have hres := hshortest.1.2 2 le_rfl (by decide)
  rw [residualAt, Finset.sum_range_succ, Finset.sum_range_succ, Finset.sum_range_one] at hres
  simp only [symbols, ← mk_gfMulTable, ← mk_xor, mk_eq_zero] at hres
  exact absurd hres (by decide +kernel)

end QuicFuscate.Fec
