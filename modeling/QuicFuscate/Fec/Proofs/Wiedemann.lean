import QuicFuscate.Fec.Proofs.Gaussian
import QuicFuscate.Fec.Proofs.SlidingWindow

/-!
# What the Wiedemann solver computes

All matrices of the solver are tables of a function of row and column, under any multiplication
policy.  The constant coefficient of the polynomial that Berlekamp-Massey returns is settled by the
first term of the Krylov sequence, which is the square of the starting vector and does not depend
on the matrix; when it is not zero, nothing in the solver aborts.
-/

namespace QuicFuscate.Fec

open Framework CsrMatrix

/-! ## Sums and tables -/

def xorSum (n : ℕ) (g : ℕ → UInt8) : UInt8 := (List.range n).foldl (fun acc t => acc ^^^ g t) 0

private theorem xorSum_succ (n : ℕ) (g : ℕ → UInt8) : xorSum (n + 1) g = xorSum n g ^^^ g n := by
  rw [xorSum, List.range_succ, List.foldl_append]
  rfl

theorem xorSum_congr {n : ℕ} {g h : ℕ → UInt8} (hgh : ∀ t < n, g t = h t) : xorSum n g = xorSum n h := by
  induction n with
  | zero => rfl
  | succ n ih => rw [xorSum_succ, xorSum_succ, ih fun t ht => hgh t (by omega), hgh n (by omega)]

private theorem loopTo_xorSum {n : ℕ} (s : UInt8) {f : ℕ → UInt8 → Checked UInt8} (g : ℕ → UInt8)
    (h : ∀ i < n, ∀ acc, f i acc = .ok (acc ^^^ g i)) : loopTo n s f = .ok (s ^^^ xorSum n g) := by
  induction n with
  | zero => simp [xorSum]
  | succ n ih =>
      rw [loopTo_succ, ih fun i hi => h i (by omega), ok_bind, h n (by omega), xorSum_succ, UInt8.xor_assoc]

def tabulate (rows cols : ℕ) (f : ℕ → ℕ → UInt8) : Dense :=
  (List.range rows).map fun r => (List.range cols).map (f r)

variable {env : Platform} {k rows cols : ℕ}

theorem readAt_tabulate {f : ℕ → ℕ → UInt8} {r : ℕ} (hr : r < rows) :
    readAt (tabulate rows cols f) r = .ok ((List.range cols).map (f r)) :=
  readAt_range_map hr _

private theorem denseMatrix_ofFn {f : ℕ → SparseRow} (h : ∀ t < k, (f t).WellFormed k) :
    denseMatrix (ofFn k f) k = .ok (tabulate k k fun r => (f r).coeff) := by
  apply mapM_of_forall_ok
  intro r hr
  have hr := List.mem_range.mp hr
  rw [rowEntries_ofFn hr, ok_bind, densify_ok (h r hr)]

theorem identityMatrix_eq (k : ℕ) : identityMatrix k = tabulate k k fun r c => if r = c then 1 else 0 := by
  refine List.map_congr_left fun i _ => List.ext_getElem (by simp) fun j h1 h2 => ?_
  simp [List.getElem_set]

/-! ## The Krylov sequence -/

section Krylov

variable (policy : SimdPolicy) (k : ℕ) (a : ℕ → ℕ → UInt8)

def mulVec (x : ℕ → UInt8) (r : ℕ) : UInt8 := xorSum k fun c => gfMul policy (a r c) (x c)

def krylovVec (w : ℕ → UInt8) : ℕ → ℕ → UInt8
  | 0 => w
  | t + 1 => mulVec policy k a (krylovVec w t)

def dot (x y : ℕ → UInt8) : UInt8 := xorSum k fun i => gfMul policy (x i) (y i)

def krylovTerm (w : ℕ → UInt8) (t : ℕ) : UInt8 := dot policy k w (krylovVec policy k a w t)

def startVec (i : ℕ) : UInt8 := UInt8.ofNat ((i + 1) % 255)

def krylovList : List UInt8 := (List.range (2 * k)).map (krylovTerm policy k a startVec)

end Krylov

@[simp] theorem krylovList_length (policy : SimdPolicy) (k : ℕ) (a : ℕ → ℕ → UInt8) :
    (krylovList policy k a).length = 2 * k := by
  simp [krylovList]

theorem krylovList_getD (policy : SimdPolicy) {k t : ℕ} (a : ℕ → ℕ → UInt8) (ht : t < 2 * k) :
    (krylovList policy k a).getD t 0 = krylovTerm policy k a startVec t := by
  simp [krylovList, List.getD_eq_getElem?_getD, List.getElem?_range ht]

private theorem matVecMul_ok (a : ℕ → ℕ → UInt8) (x : ℕ → UInt8) :
    matVecMul env (tabulate k k a) ((List.range k).map x) = .ok ((List.range k).map (mulVec env.policy k a x)) := by
  rw [matVecMul, List.length_map, List.length_range]
  apply mapM_of_forall_ok
  intro r hr
  have hr := List.mem_range.mp hr
  rw [loopTo_xorSum 0 (fun c => gfMul env.policy (a r c) (x c)), UInt8.zero_xor, mulVec]
  intro c hc acc
  rw [readAt_tabulate hr, ok_bind, readAt_range_map hc, ok_bind]
  split
  · rw [readAt_range_map hc, ok_bind]
    rfl
  · rename_i hzero
    have hzero : a r c = 0 := by simpa using hzero
    rw [hzero, gfMul_zero, UInt8.xor_zero]
    rfl

private theorem dotProduct_ok (x y : ℕ → UInt8) :
    dotProduct env k ((List.range k).map x) ((List.range k).map y) = .ok (dot env.policy k x y) := by
  rw [dotProduct, loopTo_xorSum 0 (fun i => gfMul env.policy (x i) (y i)), UInt8.zero_xor, dot]
  intro i hi acc
  rw [readAt_range_map hi, ok_bind, readAt_range_map hi, ok_bind]
  rfl

private theorem krylovSequence_ok (a : ℕ → ℕ → UInt8) (w : ℕ → UInt8) :
    krylovSequence env k (tabulate k k a) ((List.range k).map w) =
      .ok ((List.range (2 * k)).map (krylovTerm env.policy k a w)) := by
  refine bind_eq_ok.mpr ⟨((List.range (2 * k)).map (krylovTerm env.policy k a w),
    (List.range k).map (krylovVec env.policy k a w (2 * k))), ?_, rfl⟩
  apply loopTo_eq (fun t => ((List.range t).map (krylovTerm env.policy k a w),
    (List.range k).map (krylovVec env.policy k a w t))) rfl _ rfl
  intro t ht
  rw [dotProduct_ok, ok_bind, matVecMul_ok, ok_bind, List.range_succ, List.map_append]
  rfl

private theorem blockLanczosIteration_ok (env : Platform) {f : ℕ → SparseRow} (h : ∀ t < k, (f t).WellFormed k) :
    ∃ seq, blockLanczosIteration env k (ofFn k f) (initVectors k) = .ok seq ∧
      readAt seq 0 = .ok (krylovList env.policy k fun r => (f r).coeff) := by
  have hmap : (List.range (wiedemannBlock k)).mapM (fun b =>
        krylovSequence env k (tabulate k k fun r => (f r).coeff) (initVector k b)) =
      .ok ((List.range (wiedemannBlock k)).map fun b => (List.range (2 * k)).map
        (krylovTerm env.policy k (fun r => (f r).coeff) fun i => UInt8.ofNat ((i + b + 1) % 255))) :=
    mapM_of_forall_ok fun b _ => krylovSequence_ok _ _
  refine ⟨_, by rw [blockLanczosIteration, denseMatrix_ofFn h, ok_bind, initVectors, List.mapM_map]; exact hmap, ?_⟩
  rw [readAt_range_map (by unfold wiedemannBlock; omega)]
  rfl

/-! ## Berlekamp-Massey -/

section Massey

variable {s : List UInt8} {st st' : MasseyState} {i : ℕ}

def constCoeff (policy : SimdPolicy) (s₀ : UInt8) : UInt8 := 1 ^^^ gfMul policy (gfMul policy s₀ 1) 1

/-- The state before position `i`, as far as bounds and the constant coefficient go.  Past the
first position the constant coefficient no longer changes. -/
structure MasseyOk (policy : SimdPolicy) (s : List UInt8) (i : ℕ) (st : MasseyState) : Prop where
  c_length : st.c.length = s.length + 1
  bb_length : st.bb.length = s.length + 1
  l_le : st.l ≤ i
  m_le : st.m ≤ i
  start : i = 0 → st = masseyInit s.length
  m_lt : 0 < i → st.m < i
  c_zero : 0 < i → st.c.getD 0 0 = constCoeff policy (s.getD 0 0)
  bb_zero : st.bb.getD 0 0 = 1 ∨ st.bb.getD 0 0 = constCoeff policy (s.getD 0 0)
  l_zero : st.l = 0 ↔ ∀ j < i, s.getD j 0 = 0

theorem masseyOk_init (policy : SimdPolicy) (s : List UInt8) : MasseyOk policy s 0 (masseyInit s.length) where
  c_length := by simp [masseyInit]
  bb_length := by simp [masseyInit]
  l_le := le_rfl
  m_le := le_rfl
  start := fun _ => rfl
  m_lt := fun h => absurd h (lt_irrefl 0)
  c_zero := fun h => absurd h (lt_irrefl 0)
  bb_zero := .inl rfl
  l_zero := by simp [masseyInit]

def masseyDiscrepancy (policy : SimdPolicy) (s : List UInt8) (st : MasseyState) (i : ℕ) : UInt8 :=
  s.getD i 0 ^^^ xorSum st.l fun j => gfMul policy (st.c.getD (j + 1) 0) (s.getD (i - (j + 1)) 0)

private theorem masseyDiscrepancy_of_l_zero (policy : SimdPolicy) (h : st.l = 0) :
    masseyDiscrepancy policy s st i = s.getD i 0 := by
  simp [masseyDiscrepancy, h, xorSum]

theorem MasseyOk.discrepancyAt_ok (h : MasseyOk env.policy s i st) (hi : i < s.length) :
    discrepancyAt env s st i = .ok (masseyDiscrepancy env.policy s st i) := by
  have hl := h.l_le
  have hc := h.c_length
  rw [discrepancyAt, readAt_getD hi 0, ok_bind]
  apply loopTo_xorSum
  intro j hj acc
  rw [readAt_getD (by omega) 0, ok_bind, checkedSub_of_le (by omega), ok_bind, readAt_getD (by omega) 0, ok_bind]
  rfl

def corrected (policy : SimdPolicy) (n : ℕ) (st : MasseyState) (coef : UInt8) (shift : ℕ) : List UInt8 :=
  st.c.mapIdx fun p x => if shift ≤ p ∧ p < n then x ^^^ gfMul policy coef (st.bb.getD (p - shift) 0) else x

@[simp] theorem corrected_length (policy : SimdPolicy) (n : ℕ) (st : MasseyState) (coef : UInt8) (shift : ℕ) :
    (corrected policy n st coef shift).length = st.c.length := by
  simp [corrected]

theorem corrected_getD (policy : SimdPolicy) {n p : ℕ} (hp : p < st.c.length) (coef : UInt8) (shift : ℕ) :
    (corrected policy n st coef shift).getD p 0 =
      if shift ≤ p ∧ p < n then st.c.getD p 0 ^^^ gfMul policy coef (st.bb.getD (p - shift) 0) else st.c.getD p 0 := by
  rw [List.getD_eq_getElem _ _ (by simpa using hp), List.getD_eq_getElem _ _ hp]
  simp [corrected]

theorem MasseyOk.correctPoly_ok (h : MasseyOk env.policy s i st) (coef : UInt8) :
    correctPoly env s.length st coef (i - st.m) = .ok (corrected env.policy s.length st coef (i - st.m)) := by
  have hc := h.c_length
  have hb := h.bb_length
  have hm := h.m_le
  have hcorrect : correctPoly env s.length st coef (i - st.m) = loopFromTo (i - st.m) s.length st.c (fun p c => do
      writeAt c p ((← readAt c p) ^^^ gfMul env.policy coef (← readAt st.bb (p - (i - st.m))))) := by
    rw [correctPoly, loopFromTo]
    congr 1
    funext j c
    rw [Nat.add_comm j, Nat.add_sub_cancel_left]
  rw [hcorrect]
  apply loopFromTo_map (fun p x => x ^^^ gfMul env.policy coef (st.bb.getD (p - (i - st.m)) 0))
  · intro p x ys hlo hhi hlen hx
    rw [readAt_eq_ok.mpr hx, ok_bind, readAt_getD (by omega) 0, ok_bind, writeAt_of_lt (by omega)]
  · omega

def correctedState (policy : SimdPolicy) (n : ℕ) (st : MasseyState) (coef : UInt8) (i : ℕ) : MasseyState :=
  if 2 * st.l ≤ i then ⟨corrected policy n st coef (i - st.m), st.c, i + 1 - st.l, i⟩
  else { st with c := corrected policy n st coef (i - st.m) }

theorem MasseyOk.step_cases (h : MasseyOk env.policy s i st) (hi : i < s.length)
    (hstep : masseyStep env s i st = .ok st') :
    (masseyDiscrepancy env.policy s st i = 0 ∧ st' = st) ∨
      (masseyDiscrepancy env.policy s st i ≠ 0 ∧ ∃ inv, gfInv (st.bb.getD 0 0) = .ok inv ∧
        st' = correctedState env.policy s.length st
          (gfMul env.policy (masseyDiscrepancy env.policy s st i) inv) i) := by
  have hb := h.bb_length
  rw [masseyStep, h.discrepancyAt_ok hi, ok_bind] at hstep
  by_cases hzero : masseyDiscrepancy env.policy s st i = 0
  · rw [if_neg (by simpa using hzero)] at hstep
    exact .inl ⟨hzero, (Except.ok.inj hstep).symm⟩
  · rw [if_pos hzero, readAt_getD (by omega) 0, ok_bind, bind_eq_ok] at hstep
    obtain ⟨inv, hinv, hstep⟩ := hstep
    rw [checkedSub_of_le h.m_le, ok_bind, h.correctPoly_ok, ok_bind] at hstep
    refine .inr ⟨hzero, inv, hinv, ?_⟩
    rw [correctedState]
    split at hstep
    · rename_i htwice
      rw [if_pos htwice]
      exact (Except.ok.inj hstep).symm
    · rename_i htwice
      rw [if_neg htwice]
      exact (Except.ok.inj hstep).symm

theorem gfInv_one : gfInv 1 = .ok 1 := by
  decide +kernel

theorem MasseyOk.exists_ne_zero (h : MasseyOk env.policy s i st) (hd : masseyDiscrepancy env.policy s st i ≠ 0) :
    ¬ ∀ j < i + 1, s.getD j 0 = 0 := by
  intro hall
  have hl := h.l_zero.mpr fun j hj => hall j (by omega)
  exact hd ((masseyDiscrepancy_of_l_zero env.policy hl).trans (hall i (by omega)))

theorem MasseyOk.keep (h : MasseyOk env.policy s i st) (hterm : st.l = 0 → s.getD i 0 = 0) :
    MasseyOk env.policy s (i + 1) st where
  c_length := h.c_length
  bb_length := h.bb_length
  l_le := h.l_le.trans (Nat.le_succ i)
  m_le := h.m_le.trans (Nat.le_succ i)
  start := fun hi => absurd hi (Nat.succ_ne_zero i)
  m_lt := fun _ => Nat.lt_succ_of_le h.m_le
  c_zero := fun _ => by
    rcases Nat.eq_zero_or_pos i with rfl | hpos
    · have hst := h.start rfl
      rw [hterm (by rw [hst]; rfl), hst]
      simp [masseyInit, constCoeff]
    · exact h.c_zero hpos
  bb_zero := h.bb_zero
  l_zero := by
    rw [h.l_zero]
    constructor
    · intro hall j hj
      rcases Nat.lt_succ_iff_lt_or_eq.mp hj with hlt | rfl
      · exact hall j hlt
      · exact hterm (h.l_zero.mpr hall)
    · intro hall j hj
      exact hall j (by omega)

theorem MasseyOk.corrected_zero (h : MasseyOk env.policy s i st) (hi : i < s.length) {inv : UInt8}
    (hinv : gfInv (st.bb.getD 0 0) = .ok inv) :
    (corrected env.policy s.length st (gfMul env.policy (masseyDiscrepancy env.policy s st i) inv)
      (i - st.m)).getD 0 0 =
      constCoeff env.policy (s.getD 0 0) := by
  have hlen := h.c_length
  rw [corrected_getD _ (by omega)]
  rcases Nat.eq_zero_or_pos i with rfl | hpos
  · have hst := h.start rfl
    have hb : st.bb.getD 0 0 = 1 := by rw [hst]; rfl
    have hc0 : st.c.getD 0 0 = 1 := by rw [hst]; rfl
    rw [hb, gfInv_one] at hinv
    rw [if_pos (by omega), hc0, Nat.zero_sub, hb, ← Except.ok.inj hinv,
      masseyDiscrepancy_of_l_zero _ (by rw [hst]; rfl), constCoeff]
  · have hm := h.m_lt hpos
    rw [if_neg (by omega), h.c_zero hpos]

theorem MasseyOk.step (h : MasseyOk env.policy s i st) (hi : i < s.length)
    (hstep : masseyStep env s i st = .ok st') : MasseyOk env.policy s (i + 1) st' := by
  have hl := h.l_le
  have hm := h.m_le
  rcases h.step_cases hi hstep with ⟨hzero, rfl⟩ | ⟨hne, inv, hinv, rfl⟩
  · exact h.keep fun hl => (masseyDiscrepancy_of_l_zero env.policy hl).symm.trans hzero
  · have hzero := h.exists_ne_zero hne
    have hconst := h.corrected_zero hi hinv
    rw [correctedState]
    split
    · exact
        { c_length := (corrected_length _ _ _ _ _).trans h.c_length
          bb_length := h.c_length
          l_le := Nat.sub_le _ _
          m_le := Nat.le_succ i
          start := fun hi => absurd hi (Nat.succ_ne_zero i)
          m_lt := fun _ => Nat.lt_succ_self i
          c_zero := fun _ => hconst
          bb_zero := by
            rcases Nat.eq_zero_or_pos i with rfl | hpos
            · rw [h.start rfl]
              exact .inl rfl
            · exact .inr (h.c_zero hpos)
          l_zero := iff_of_false (by dsimp only; omega) hzero }
    · exact
        { c_length := (corrected_length _ _ _ _ _).trans h.c_length
          bb_length := h.bb_length
          l_le := hl.trans (Nat.le_succ i)
          m_le := hm.trans (Nat.le_succ i)
          start := fun hi => absurd hi (Nat.succ_ne_zero i)
          m_lt := fun _ => Nat.lt_succ_of_le hm
          c_zero := fun _ => hconst
          bb_zero := h.bb_zero
          l_zero := iff_of_false (by dsimp only; omega) hzero }

theorem MasseyOk.step_ok (h : MasseyOk env.policy s i st) (hi : i < s.length)
    (hconst : constCoeff env.policy (s.getD 0 0) ≠ 0) : ∃ st', masseyStep env s i st = .ok st' := by
  have hb := h.bb_length
  rw [masseyStep, h.discrepancyAt_ok hi, ok_bind]
  by_cases hzero : masseyDiscrepancy env.policy s st i = 0
  · exact ⟨st, by rw [if_neg (by simpa using hzero)]; rfl⟩
  · have hne : st.bb.getD 0 0 ≠ 0 := by
      rcases h.bb_zero with hone | hc
      · rw [hone]
        decide
      · rwa [hc]
    obtain ⟨inv, hinv, -⟩ := GF256.gfInv_of_ne hne
    rw [if_pos hzero, readAt_getD (by omega) 0, ok_bind, hinv, ok_bind, checkedSub_of_le h.m_le, ok_bind,
      h.correctPoly_ok, ok_bind]
    split
    · exact ⟨_, rfl⟩
    · exact ⟨_, rfl⟩

/-- The polynomial of a completed run: its constant coefficient, and that it is constant only for
the zero sequence. -/
theorem berlekampMassey_completed {r : Option (List UInt8)} (hs : s ≠ []) (h : berlekampMassey env s = .ok r) :
    ∃ poly, r = some poly ∧ poly ≠ [] ∧ poly.getD 0 0 = constCoeff env.policy (s.getD 0 0) ∧
      (poly.length ≤ 1 ↔ ∀ j < s.length, s.getD j 0 = 0) := by
  rw [berlekampMassey, bind_eq_ok] at h
  obtain ⟨st, hloop, h⟩ := h
  have hpos := List.length_pos_iff.mpr hs
  have hok : MasseyOk env.policy s s.length st :=
    loopTo_reaches (MasseyOk env.policy s) hloop (masseyOk_init env.policy s)
      fun i u u' hi hu hstep => hu.step hi hstep
  have hl := hok.l_le
  have hlen : (st.c.take (st.l + 1)).length = st.l + 1 := by
    rw [List.length_take, hok.c_length]
    omega
  refine ⟨st.c.take (st.l + 1), (Except.ok.inj h).symm, ?_, ?_, ?_⟩
  · exact List.ne_nil_of_length_pos (by omega)
  · rw [← hok.c_zero hpos, List.getD_eq_getElem?_getD, List.getElem?_take_of_lt (Nat.succ_pos _),
      List.getD_eq_getElem?_getD]
  · rw [hlen, ← hok.l_zero]
    omega

theorem berlekampMassey_ok (hconst : constCoeff env.policy (s.getD 0 0) ≠ 0) :
    ∃ r, berlekampMassey env s = .ok r := by
  obtain ⟨st, hst, -⟩ := loopTo_ok (n := s.length) (s := masseyInit s.length) (f := masseyStep env s)
    (MasseyOk env.policy s) (masseyOk_init env.policy s) (by
      intro i st hi hok
      obtain ⟨st', hstep⟩ := hok.step_ok hi hconst
      exact ⟨st', hstep, hok.step hi hstep⟩)
  exact ⟨_, by rw [berlekampMassey, hst, ok_bind]; rfl⟩

end Massey

/-! ## Products, powers and the inverse -/

section Products

variable (policy : SimdPolicy) (k : ℕ)

def mulFn (a b : ℕ → ℕ → UInt8) (r c : ℕ) : UInt8 := xorSum k fun t => gfMul policy (a r t) (b t c)

def powFn (a : ℕ → ℕ → UInt8) : ℕ → ℕ → ℕ → UInt8
  | 0 => fun r c => if r = c then 1 else 0
  | t + 1 => mulFn policy k (powFn a t) a

/-- The combination of powers that stands for the inverse. -/
def inverseFn (poly : List UInt8) (c0Inv : UInt8) (a : ℕ → ℕ → UInt8) (r c : ℕ) : UInt8 :=
  xorSum (poly.length - 1) fun i => gfMul policy (gfMul policy (poly.getD (1 + i) 0) c0Inv) (powFn policy k a i r c)

end Products

private theorem matMulRow_ok (a : ℕ → UInt8) (b : ℕ → ℕ → UInt8) :
    matMulRow env ((List.range k).map a) (tabulate k cols b) cols =
      .ok ((List.range cols).map fun j => xorSum k fun t => gfMul env.policy (a t) (b t j)) := by
  have hlen : (tabulate k cols b).length = k := by simp [tabulate]
  rw [matMulRow, hlen]
  apply loopTo_eq (fun t => (List.range cols).map fun j => xorSum t fun u => gfMul env.policy (a u) (b u j)) _ _ rfl
  · simp [xorSum, List.map_const']
  · intro t ht
    rw [readAt_range_map ht, ok_bind]
    by_cases hzero : a t = 0
    · rw [if_pos hzero]
      apply congrArg Except.ok
      apply List.map_congr_left
      intro j _
      rw [xorSum_succ, hzero, gfMul_zero, UInt8.xor_zero]
    · rw [if_neg hzero, readAt_tabulate ht, ok_bind]
      apply loopTo_range_map
      intro j hj ys hread
      rw [hread, ok_bind, readAt_range_map hj, ok_bind, xorSum_succ]

theorem matMul_ok (hk : 1 ≤ k) (a b : ℕ → ℕ → UInt8) :
    matMul env (tabulate rows k a) (tabulate k cols b) = .ok (tabulate rows cols (mulFn env.policy k a b)) := by
  have hrows : (List.range rows).mapM (fun r =>
        matMulRow env ((List.range k).map (a r)) (tabulate k cols b) cols) =
      .ok ((List.range rows).map fun r => (List.range cols).map (mulFn env.policy k a b r)) :=
    mapM_of_forall_ok fun r _ => matMulRow_ok (a r) b
  rw [matMul, readAt_tabulate (by omega), ok_bind]
  simp only [List.length_map, List.length_range]
  rw [show tabulate rows k a = (List.range rows).map fun r => (List.range k).map (a r) from rfl, List.mapM_map]
  exact hrows

private theorem matrixPowers_ok (hk : 1 ≤ k) (a : ℕ → ℕ → UInt8) (count : ℕ) :
    matrixPowers env (tabulate k k a) k count =
      .ok ((List.range (count + 1)).map fun t => tabulate k k (powFn env.policy k a t)) := by
  apply loopTo_eq (fun t => (List.range (t + 1)).map fun u => tabulate k k (powFn env.policy k a u)) _ _ rfl
  · rw [identityMatrix_eq]
    rfl
  · intro t _
    have hlast : ((List.range (t + 1)).map fun u => tabulate k k (powFn env.policy k a u)).getLast? =
        some (tabulate k k (powFn env.policy k a t)) := by
      rw [List.range_succ, List.map_append, List.map_singleton, List.getLast?_concat]
    rw [hlast, expectSome, ok_bind, matMul_ok hk, ok_bind, List.range_succ (n := t + 1), List.map_append]
    rfl

private theorem addScaledMatrix_ok (coef : UInt8) (mat acc : ℕ → ℕ → UInt8) :
    addScaledMatrix env k coef (tabulate k k mat) (tabulate k k acc) =
      .ok (tabulate k k fun r c => acc r c ^^^ gfMul env.policy coef (mat r c)) := by
  apply loopTo_range_map
  intro r hr rows hread
  rw [hread, ok_bind, loopTo_range_map _ fun c => acc r c ^^^ gfMul env.policy coef (mat r c)]
  · rfl
  · intro c hc row hread
    rw [hread, ok_bind, readAt_tabulate hr, ok_bind, readAt_range_map hc, ok_bind]

private theorem polyInverse_ok (a : ℕ → ℕ → UInt8) {poly : List UInt8} {c0Inv : UInt8} (hpoly : poly ≠ [])
    (hinv : gfInv (poly.getD 0 0) = .ok c0Inv) :
    polyInverse env k poly ((List.range (poly.length - 1 + 1)).map fun t => tabulate k k (powFn env.policy k a t)) =
      .ok (tabulate k k (inverseFn env.policy k poly c0Inv a)) := by
  have hpos := List.length_pos_iff.mpr hpoly
  rw [polyInverse, readAt_getD hpos 0, ok_bind, hinv, ok_bind, loopFromTo]
  apply loopTo_eq (fun n => tabulate k k fun r c =>
    xorSum n fun i => gfMul env.policy (gfMul env.policy (poly.getD (1 + i) 0) c0Inv)
      (powFn env.policy k a i r c)) _ _ rfl
  · simp [tabulate, xorSum, List.map_const']
  · intro n hn
    rw [readAt_getD (by omega) 0, ok_bind, Nat.add_sub_cancel_left, readAt_range_map (by omega), ok_bind,
      addScaledMatrix_ok]
    simp only [xorSum_succ]

/-! ## The solution -/

def maxLen (payloads : List (Option (List UInt8))) : ℕ := (payloads.filterMap fun p => p.map List.length).foldl max 0

private theorem le_foldl_max (xs : List ℕ) (acc : ℕ) :
    acc ≤ xs.foldl max acc ∧ ∀ x ∈ xs, x ≤ xs.foldl max acc := by
  induction xs generalizing acc with
  | nil => simp
  | cons x xs ih =>
      obtain ⟨hacc, hxs⟩ := ih (max acc x)
      refine ⟨(le_max_left acc x).trans hacc, List.forall_mem_cons.mpr ⟨(le_max_right acc x).trans hacc, hxs⟩⟩

theorem length_le_maxLen {payloads : List (Option (List UInt8))} {p : List UInt8} (h : some p ∈ payloads) :
    p.length ≤ maxLen payloads :=
  (le_foldl_max _ 0).2 _ (List.mem_filterMap.mpr ⟨some p, h, rfl⟩)

theorem maxLen_le {payloads : List (Option (List UInt8))} {n : ℕ} (h : ∀ p, some p ∈ payloads → p.length ≤ n) :
    maxLen payloads ≤ n := by
  have hfold : ∀ (xs : List ℕ) (acc : ℕ), acc ≤ n → (∀ x ∈ xs, x ≤ n) → xs.foldl max acc ≤ n := by
    intro xs
    induction xs with
    | nil => exact fun acc hacc _ => hacc
    | cons x xs ih =>
        intro acc hacc hxs
        exact ih _ (max_le hacc (hxs x (by simp))) fun y hy => hxs y (by simp [hy])
  refine hfold _ 0 (Nat.zero_le n) fun x hx => ?_
  obtain ⟨o, ho, hx⟩ := List.mem_filterMap.mp hx
  obtain ⟨p, rfl, rfl⟩ := Option.map_eq_some_iff.mp hx
  exact h p ho

def payloadByte (f : ℕ → SparseRow) (r j : ℕ) : UInt8 := ((f r).payload.getD []).getD j 0

variable {f : ℕ → SparseRow}

private theorem payloadMatrix_ok (k : ℕ) (f : ℕ → SparseRow) :
    payloadMatrix k ((List.range k).map fun t => (f t).payload) =
      .ok (tabulate k (maxLen ((List.range k).map fun t => (f t).payload)) (payloadByte f),
        maxLen ((List.range k).map fun t => (f t).payload)) := by
  generalize hmax : maxLen ((List.range k).map fun t => (f t).payload) = width
  have hzeros : List.replicate k (List.replicate width (0 : UInt8)) = tabulate k width fun _ _ => 0 := by
    simp [tabulate, List.map_const']
  have hloop : (((List.range k).map fun t => (f t).payload).filterMap fun p => p.map List.length).foldl max 0 = width :=
    hmax
  rw [payloadMatrix, hloop, List.length_map, List.length_range, hzeros]
  refine bind_eq_ok.mpr ⟨tabulate k width (payloadByte f), ?_, rfl⟩
  apply loopTo_range_map
  intro r hr bMat hread
  rw [readAt_range_map hr, ok_bind]
  cases hp : (f r).payload with
  | none =>
      have hrow : (List.range width).map (payloadByte f r) = (List.range width).map fun _ => 0 :=
        List.map_congr_left fun j _ => by simp [payloadByte, hp]
      rw [hrow, writeAt_self hread]
      rfl
  | some p =>
      have hle : p.length ≤ width := hmax ▸ length_le_maxLen (List.mem_map.mpr ⟨r, List.mem_range.mpr hr, hp⟩)
      have hcopy : copyFront ((List.range width).map fun _ => 0) p =
          .ok ((List.range width).map (payloadByte f r)) := by
        rw [copyFront_of_le (by simpa using hle)]
        refine congrArg Except.ok (List.ext_getElem (by simp [hle]) fun j h1 h2 => ?_)
        rcases Nat.lt_or_ge j p.length with hj | hj
        · simp [hj, payloadByte, hp]
        · simp [List.getElem_append_right, hj, payloadByte, hp]
      dsimp only
      rw [hread, ok_bind, hcopy, ok_bind]

private theorem constCoeff_eq_zero_iff (policy : SimdPolicy) (s₀ : UInt8) : constCoeff policy s₀ = 0 ↔ s₀ = 1 := by
  have hone : gfMul policy 1 1 = 1 := by
    cases policy <;> decide +kernel
  rw [constCoeff, UInt8.xor_eq_zero_iff]
  constructor
  · intro h
    have hinj := gfMul_one_injective policy
    refine hinj (hinj ?_)
    simp only [hone]
    exact h.symm
  · rintro rfl
    rw [hone, hone]

/-- The Krylov sequence of the starting vector is not zero and does not start with one. -/
def KrylovUsable (policy : SimdPolicy) (k : ℕ) (a : ℕ → ℕ → UInt8) : Prop :=
  (∃ t < 2 * k, krylovTerm policy k a startVec t ≠ 0) ∧ krylovTerm policy k a startVec 0 ≠ 1

private theorem wiedemannSolve_eq (h : ∀ t < k, (f t).WellFormed k) :
    wiedemannSolve env k (ofFn k f) = (do
      match ← berlekampMassey env (krylovList env.policy k fun r => (f r).coeff) with
      | none => return none
      | some poly =>
          if poly.length ≤ 1 then
            return none
          if (← readAt poly 0) = 0 then
            return none
          let powers ← matrixPowers env (tabulate k k fun r => (f r).coeff) k (poly.length - 1)
          let aInv ← polyInverse env k poly powers
          return some (← matMul env aInv (tabulate k (maxLen ((List.range k).map fun t => (f t).payload))
            (payloadByte f)), maxLen ((List.range k).map fun t => (f t).payload))) := by
  obtain ⟨seq, hseq, hfirst⟩ := blockLanczosIteration_ok env h
  have hpayloads : (ofFn k f).payloads = (List.range k).map fun t => (f t).payload := by
    simp [ofFn, ofRows, Function.comp_def]
  rw [wiedemannSolve, hseq, ok_bind, denseMatrix_ofFn h, ok_bind, hpayloads, payloadMatrix_ok, ok_bind]
  dsimp only
  rewrite [hfirst, ok_bind]
  rfl

theorem wiedemannSolve_usable (env : Platform) (hk : 1 ≤ k) (h : ∀ t < k, (f t).WellFormed k)
    (hs : KrylovUsable env.policy k fun r => (f r).coeff) :
    ∃ poly c0Inv, berlekampMassey env (krylovList env.policy k fun r => (f r).coeff) = .ok (some poly) ∧
      poly.getD 0 0 ≠ 0 ∧ gfInv (poly.getD 0 0) = .ok c0Inv ∧
      wiedemannSolve env k (ofFn k f) = .ok (some
        (tabulate k (maxLen ((List.range k).map fun t => (f t).payload))
          (mulFn env.policy k (inverseFn env.policy k poly c0Inv fun r => (f r).coeff) (payloadByte f)),
        maxLen ((List.range k).map fun t => (f t).payload))) := by
  obtain ⟨⟨t, ht, hne⟩, hone⟩ := hs
  have hconst : constCoeff env.policy ((krylovList env.policy k fun r => (f r).coeff).getD 0 0) ≠ 0 := by
    rw [krylovList_getD _ _ (by omega)]
    exact fun hzero => hone ((constCoeff_eq_zero_iff _ _).mp hzero)
  obtain ⟨r, hr⟩ := berlekampMassey_ok hconst
  obtain ⟨poly, rfl, hpoly, hpoly0, hlen⟩ := berlekampMassey_completed
    (List.ne_nil_of_length_pos (by rw [krylovList_length]; omega)) hr
  have hp0 : poly.getD 0 0 ≠ 0 := hpoly0 ▸ hconst
  obtain ⟨c0Inv, hinv, -⟩ := GF256.gfInv_of_ne hp0
  have hlong : ¬ poly.length ≤ 1 := by
    rw [hlen]
    intro hall
    have hzero := hall t (by simpa using ht)
    rw [krylovList_getD _ _ ht] at hzero
    exact hne hzero
  refine ⟨poly, c0Inv, hr, hp0, hinv, ?_⟩
  rw [wiedemannSolve_eq h, hr, ok_bind]
  dsimp only
  rw [if_neg hlong, readAt_getD (List.length_pos_iff.mpr hpoly) 0, ok_bind, if_neg hp0, matrixPowers_ok hk, ok_bind,
    polyInverse_ok _ hpoly hinv, ok_bind, matMul_ok hk, ok_bind]
  rfl

/-- From an unusable sequence the solver returns nothing, if it returns. -/
theorem wiedemannSolve_unusable (hk : 1 ≤ k) (h : ∀ t < k, (f t).WellFormed k)
    (hs : ¬ KrylovUsable env.policy k fun r => (f r).coeff) {r : Option (Dense × ℕ)}
    (hrun : wiedemannSolve env k (ofFn k f) = .ok r) : r = none := by
  rw [wiedemannSolve_eq h, bind_eq_ok] at hrun
  obtain ⟨res, hmassey, hrun⟩ := hrun
  obtain ⟨poly, rfl, hpoly, hpoly0, hlen⟩ := berlekampMassey_completed
    (List.ne_nil_of_length_pos (by rw [krylovList_length]; omega)) hmassey
  dsimp only at hrun
  by_cases hshort : poly.length ≤ 1
  · rw [if_pos hshort] at hrun
    exact (Except.ok.inj hrun).symm
  · -- A term is nonzero, so it is the constant coefficient that vanishes.
    have hzero : poly.getD 0 0 = 0 := by
      rw [hpoly0, constCoeff_eq_zero_iff, krylovList_getD _ _ (by omega)]
      by_contra hone
      refine hs ⟨?_, hone⟩
      rw [hlen] at hshort
      push Not at hshort
      obtain ⟨t, ht, hne⟩ := hshort
      rw [krylovList_length] at ht
      rw [krylovList_getD _ _ ht] at hne
      exact ⟨t, ht, hne⟩
    rw [if_neg hshort, readAt_getD (List.length_pos_iff.mpr hpoly) 0, ok_bind, if_pos hzero] at hrun
    exact (Except.ok.inj hrun).symm

/-- A sequence that does not start with one is solved or refused without aborting. -/
theorem wiedemannSolve_ok (hk : 1 ≤ k) (h : ∀ t < k, (f t).WellFormed k)
    (hone : krylovTerm env.policy k (fun r => (f r).coeff) startVec 0 ≠ 1) :
    ∃ r, wiedemannSolve env k (ofFn k f) = .ok r := by
  by_cases hs : KrylovUsable env.policy k fun r => (f r).coeff
  · obtain ⟨_, _, -, -, -, hsolve⟩ := wiedemannSolve_usable env hk h hs
    exact ⟨_, hsolve⟩
  · have hconst : constCoeff env.policy ((krylovList env.policy k fun r => (f r).coeff).getD 0 0) ≠ 0 := by
      rw [krylovList_getD _ _ (by omega)]
      exact fun hzero => hone ((constCoeff_eq_zero_iff _ _).mp hzero)
    obtain ⟨r, hr⟩ := berlekampMassey_ok hconst
    obtain ⟨poly, rfl, hpoly, -, hlen⟩ := berlekampMassey_completed
      (List.ne_nil_of_length_pos (by rw [krylovList_length]; omega)) hr
    have hshort : poly.length ≤ 1 := by
      rw [hlen, krylovList_length]
      intro t ht
      rw [krylovList_getD _ _ ht]
      by_contra hne
      exact hs ⟨⟨t, ht, hne⟩, hone⟩
    refine ⟨none, ?_⟩
    rw [wiedemannSolve_eq h, hr, ok_bind]
    exact if_pos hshort

def solvedBy (env : Platform) (result : Dense) (len i : ℕ) : Packet :=
  ⟨i, some (result.getD i [] ++ env.alloc.drop (result.getD i []).length), len, true, none, 0⟩

theorem wiedemannAlgorithm_some {d : Decoder} {result : Dense} {len : ℕ}
    (hsolve : wiedemannSolve env d.k d.decodingMatrix = .ok (some (result, len)))
    (hslots : d.systematicPackets.length = result.length) (hrows : ∀ row ∈ result, row.length ≤ env.blockSize) :
    d.wiedemannAlgorithm env = .ok (true, { d with
      systematicPackets := d.systematicPackets.mapIdx fun i slot => slot.or (some (solvedBy env result len i))
      isDecoded := true }) := by
  rw [Decoder.wiedemannAlgorithm, hsolve, ok_bind]
  dsimp only
  rw [loopTo_map (fun i slot => slot.or (some (solvedBy env result len i))) (fun i slot ys hi hlen hx => ?_) hslots.ge,
    ok_bind]
  · refine congrArg (fun slots => Except.ok (true, { d with systematicPackets := slots, isDecoded := true })) ?_
    refine List.ext_getElem (by simp) fun i h1 h2 => ?_
    have hi : i < result.length := by simpa [hslots] using h1
    simp [hi]
  · rw [readAt_eq_ok.mpr hx, ok_bind]
    cases slot with
    | some q =>
        obtain ⟨hlt, hget⟩ := List.getElem?_eq_some_iff.mp hx
        have hset : ys.set i (some q) = ys := by rw [← hget, List.set_getElem_self]
        rw [Option.some_or, hset]
        rfl
    | none =>
        have hcopy : copyFront env.alloc (result.getD i []) =
            .ok (result.getD i [] ++ env.alloc.drop (result.getD i []).length) := by
          refine copyFront_of_le ?_
          rw [List.getD_eq_getElem _ _ hi, Platform.alloc_length]
          exact hrows _ (List.getElem_mem hi)
        simp only [readAt_getD hi [], ok_bind, solvedPacket, hcopy, pure_eq_ok,
          writeAt_of_lt (by omega : i < ys.length)]
        rfl

/-- The first term of the sequence does not depend on the matrix. -/
theorem krylovTerm_zero (policy : SimdPolicy) (k : ℕ) (a : ℕ → ℕ → UInt8) (w : ℕ → UInt8) :
    krylovTerm policy k a w 0 = dot policy k w w := rfl

end QuicFuscate.Fec
