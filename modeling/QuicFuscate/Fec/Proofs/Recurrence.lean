import Mathlib.LinearAlgebra.Matrix.Notation
import QuicFuscate.Fec.Proofs.Wiedemann

/-!
# The recurrence of the polynomial solver

The loop over the Krylov sequence is a recurrence on polynomials over the field.  It starts with
equal polynomials at position 0 and divides by a constant coefficient where the algorithm of
Berlekamp and Massey divides by the last discrepancy, so its result is in general neither a
connection polynomial of the sequence nor an annihilating polynomial of the matrix.
-/

namespace QuicFuscate.Fec

open Framework CsrMatrix GF256

/-! ## The recurrence over a field -/

/-- Two polynomials, given by their coefficients, the degree bound of the first and the position at
which it last changed. -/
structure Recurrence (K : Type) where
  c : ℕ → K
  b : ℕ → K
  l : ℕ
  m : ℕ

namespace Recurrence

variable {K : Type} [Field K] [DecidableEq K]

def start : Recurrence K := ⟨Pi.single 0 1, Pi.single 0 1, 0, 0⟩

def defect (s : ℕ → K) (r : Recurrence K) (i : ℕ) : K := s i + ∑ j : Fin r.l, r.c (j + 1) * s (i - (j + 1))

/-- Add `d / b 0` times the second polynomial, moved to the distance from the last change; only
coefficients below `n` are kept. -/
def correct (n : ℕ) (d : K) (r : Recurrence K) (i p : ℕ) : K :=
  if i - r.m ≤ p ∧ p < n then r.c p + d / r.b 0 * r.b (p - (i - r.m)) else r.c p

def next (n : ℕ) (s : ℕ → K) (r : Recurrence K) (i : ℕ) : Recurrence K :=
  if r.defect s i = 0 then r
  else if 2 * r.l ≤ i then ⟨r.correct n (r.defect s i) i, r.c, i + 1 - r.l, i⟩
  else { r with c := r.correct n (r.defect s i) i }

def upTo (n : ℕ) (s : ℕ → K) (i : ℕ) : Recurrence K := (List.range i).foldl (next n s) start

theorem upTo_succ (n : ℕ) (s : ℕ → K) (i : ℕ) : upTo n s (i + 1) = next n s (upTo n s i) i := by
  rw [upTo, List.range_succ, List.foldl_append]
  rfl

end Recurrence

/-! ## The loop follows it -/

/-- The state of the loop and the recurrence hold the same polynomials. -/
structure Tracks (st : MasseyState) (r : Recurrence GF256) : Prop where
  c_eq : ∀ p, mk (st.c.getD p 0) = r.c p
  b_eq : ∀ p, mk (st.bb.getD p 0) = r.b p
  l_eq : st.l = r.l
  m_eq : st.m = r.m

private theorem tracks_init (n : ℕ) : Tracks (masseyInit n) Recurrence.start := by
  have hone : ∀ p, mk ((1 :: List.replicate n 0).getD p 0) = (Pi.single 0 1 : ℕ → GF256) p := by
    intro p
    cases p with
    | zero => rfl
    | succ p =>
        rw [Pi.single_eq_of_ne (Nat.succ_ne_zero p), List.getD_cons_succ, mk_eq_zero, List.getD_eq_getElem?_getD,
          List.getElem?_replicate]
        split <;> rfl
  exact ⟨hone, hone, rfl, rfl⟩

theorem mk_xorSum (n : ℕ) (g : ℕ → UInt8) : mk (xorSum n g) = ∑ i : Fin n, mk (g i) := mk_foldl_xor g n

variable {s : List UInt8} {st st' : MasseyState} {r : Recurrence GF256} {B i : ℕ} {σ : ℕ → GF256}

private theorem mk_masseyDiscrepancy (h : Tracks st r) (hσ : ∀ t < s.length, mk (s.getD t 0) = σ t)
    (hi : i < s.length) :
    mk (masseyDiscrepancy .scalar s st i) = r.defect σ i := by
  rw [masseyDiscrepancy, mk_xor, mk_xorSum, hσ i hi, Recurrence.defect, h.l_eq]
  congr 1
  apply Finset.sum_congr rfl
  intro j _
  rw [gfMul_scalar, mk_gfMulTable, h.c_eq, hσ _ (by omega)]

private theorem mk_corrected (h : Tracks st r) {n p : ℕ} (hn : st.c.length = n + 1) {coef : UInt8} {d : GF256}
    (hcoef : mk coef = d / r.b 0) :
    mk ((corrected .scalar n st coef (i - st.m)).getD p 0) = r.correct n d i p := by
  rw [Recurrence.correct, ← h.m_eq]
  rcases Nat.lt_or_ge p st.c.length with hp | hp
  · rw [corrected_getD _ hp]
    split
    · rw [mk_xor, gfMul_scalar, mk_gfMulTable, hcoef, h.c_eq, h.b_eq]
    · exact h.c_eq p
  · rw [if_neg (by omega), ← h.c_eq p, List.getD_eq_default _ _ (by simpa using hp), List.getD_eq_default _ _ hp]

private theorem tracks_step (h : Tracks st r) (hok : MasseyOk (Platform.policy ⟨.scalar, B⟩) s i st) (hi : i < s.length)
    (hσ : ∀ t < s.length, mk (s.getD t 0) = σ t) (hstep : masseyStep ⟨.scalar, B⟩ s i st = .ok st') :
    Tracks st' (r.next s.length σ i) := by
  have hd := mk_masseyDiscrepancy h hσ hi
  rcases hok.step_cases hi hstep with ⟨hzero, rfl⟩ | ⟨hne, inv, hinv, rfl⟩
  · rw [Recurrence.next, if_pos (by rw [← hd, mk_eq_zero]; exact hzero)]
    exact h
  · rw [Recurrence.next, if_neg (by rw [← hd, mk_eq_zero]; exact hne)]
    have hcoef : mk (gfMul .scalar (masseyDiscrepancy .scalar s st i) inv) = r.defect σ i / r.b 0 := by
      have hb : st.bb.getD 0 0 ≠ 0 := by
        intro hzero
        rw [hzero] at hinv
        cases hinv
      obtain ⟨inv', hinv', hmk⟩ := gfInv_of_ne hb
      obtain rfl := Except.ok.inj (hinv.symm.trans hinv')
      rw [gfMul_scalar, mk_gfMulTable, hmk, hd, h.b_eq, div_eq_mul_inv]
    rw [correctedState, h.l_eq]
    split
    · exact ⟨fun p => mk_corrected h hok.c_length hcoef, h.c_eq, rfl, rfl⟩
    · exact ⟨fun p => mk_corrected h hok.c_length hcoef, h.b_eq, rfl, h.m_eq⟩

theorem berlekampMassey_eq {poly : List UInt8} (hσ : ∀ t < s.length, mk (s.getD t 0) = σ t)
    (h : berlekampMassey ⟨.scalar, B⟩ s = .ok (some poly)) :
    poly.length = (Recurrence.upTo s.length σ s.length).l + 1 ∧
      ∀ p < poly.length, mk (poly.getD p 0) = (Recurrence.upTo s.length σ s.length).c p := by
  rw [berlekampMassey, bind_eq_ok] at h
  obtain ⟨st, hloop, h⟩ := h
  have hrun : MasseyOk .scalar s s.length st ∧ Tracks st (Recurrence.upTo s.length σ s.length) := by
    apply loopTo_reaches
      (fun i st => MasseyOk (Platform.policy ⟨.scalar, B⟩) s i st ∧ Tracks st (Recurrence.upTo s.length σ i)) hloop
    · exact ⟨masseyOk_init .scalar s, tracks_init s.length⟩
    · intro i u u' hi hu hstep
      rw [Recurrence.upTo_succ]
      exact ⟨hu.1.step hi hstep, tracks_step hu.2 hu.1 hi hσ hstep⟩
  obtain ⟨hok, htracks⟩ := hrun
  have hpoly : poly = st.c.take (st.l + 1) := (Option.some.inj (Except.ok.inj h)).symm
  have hlen : poly.length = st.l + 1 := by
    have hc := hok.c_length
    have hl := hok.l_le
    rw [hpoly, List.length_take]
    omega
  refine ⟨by rw [hlen, htracks.l_eq], fun p hp => ?_⟩
  rw [← htracks.c_eq p, hpoly, List.getD_eq_getElem?_getD, List.getElem?_take_of_lt (by omega),
    List.getD_eq_getElem?_getD]

end QuicFuscate.Fec
