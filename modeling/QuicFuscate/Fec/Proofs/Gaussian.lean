import QuicFuscate.Fec.Decoder
import QuicFuscate.Fec.Proofs.CsrMatrix
import QuicFuscate.Fec.Proofs.GaloisField
import QuicFuscate.Framework.SystematicCode

/-!
# Elimination in the decoder

The column loop of the decoder is followed on the rows that its matrix lays out.  Under any SIMD
policy it does not abort on rows of the right width.  Under table arithmetic it makes exactly the
pivoting steps of the abstract elimination, over vectors of payload bytes.
-/

namespace QuicFuscate.Fec

open Framework CsrMatrix

/-! ## One column -/

structure RowOk (k blockSize : ℕ) (r : SparseRow) : Prop where
  wellFormed : r.WellFormed k
  payload_length : ∀ p, r.payload = some p → p.length = blockSize

def clearedRow (policy : SimdPolicy) (k i : ℕ) (pivot row : SparseRow) : SparseRow :=
  if row.coeff i ≠ 0 then SparseRow.addScaled policy k (row.coeff i) pivot row else row

def pivotRows (policy : SimdPolicy) (k : ℕ) (f : ℕ → SparseRow) (i p : ℕ) (inv : UInt8)
    (t : ℕ) : SparseRow :=
  if t = i then (f p).scale policy inv
  else clearedRow policy k i ((f p).scale policy inv) (f (Equiv.swap i p t))

variable {env : Platform} {k i B : ℕ} {f : ℕ → SparseRow}

theorem RowOk.scale {r : SparseRow} (h : RowOk k B r) (policy : SimdPolicy) (inv : UInt8) :
    RowOk k B (r.scale policy inv) where
  wellFormed := h.wellFormed.scale _ _
  payload_length := by
    intro p hp
    obtain ⟨q, hq, rfl⟩ := Option.map_eq_some_iff.mp hp
    simpa using h.payload_length q hq

theorem RowOk.cleared {pivot r : SparseRow} (h : RowOk k B r) (policy : SimdPolicy) :
    RowOk k B (clearedRow policy k i pivot r) := by
  unfold clearedRow
  split
  · refine ⟨SparseRow.wellFormed_addScaled _ _, ?_⟩
    intro p hp
    unfold SparseRow.addScaled at hp
    split at hp
    · rename_i src tgt _ htgt
      rw [← Option.some.inj hp]
      simpa [SparseRow.addScaledBytes] using h.payload_length tgt htgt
    · exact h.payload_length p hp
  · exact h

theorem RowOk.pivotRows {p : ℕ} (h : ∀ t < k, RowOk k B (f t)) (hi : i < k) (hp : p < k)
    (policy : SimdPolicy) (inv : UInt8) :
    ∀ t < k, RowOk k B (pivotRows policy k f i p inv t) := by
  intro t ht
  unfold Fec.pivotRows
  split
  · exact (h p hp).scale policy inv
  · exact (h _ (swap_lt hi hp ht)).cleared policy

private theorem findPivot_ofFn (hi : i < k) :
    (∃ p, findPivot (ofFn k f) i = .ok (some p) ∧ i ≤ p ∧ p < k ∧ (f p).coeff i ≠ 0 ∧
        ∀ q, i ≤ q → q < p → (f q).coeff i = 0) ∨
      (findPivot (ofFn k f) i = .ok none ∧ ∀ q, i ≤ q → q < k → (f q).coeff i = 0) := by
  rw [findPivot, ofFn_numRows]
  rcases findFrom_ok (n := k - i) (r := i) (g := fun r => decide ((f r).coeff i ≠ 0))
      (f := fun r => do return (← (ofFn k f).getVal r i) ≠ 0) (fun r _ hr => by
        rw [getVal_ofFn (by omega)]; rfl) with ⟨p, hp, h1, h2, h3, h4⟩ | ⟨hp, h4⟩
  · refine .inl ⟨p, hp, h1, by omega, by simpa using h3, fun q hq hqp => ?_⟩
    simpa using h4 q hq hqp
  · refine .inr ⟨hp, fun q hq hqk => ?_⟩
    simpa using h4 q hq (by omega)

private theorem clearColumn_ofFn (hi : i < k) (hok : ∀ t < k, RowOk k env.blockSize (f t)) :
    clearColumn env (ofFn k f) i = .ok (ofFn k fun t =>
      if t = i then f t else clearedRow env.policy k i (f i) (f t)) := by
  rw [clearColumn, ofFn_numRows]
  apply loopTo_eq (fun j => ofFn k fun t =>
    if t < j ∧ t ≠ i then clearedRow env.policy k i (f i) (f t) else f t)
  · simp
  · intro j hj
    by_cases hij : i = j
    · rw [if_pos hij]
      apply congrArg Except.ok
      apply ofFn_congr
      intro t _
      have hiff : t < j ∧ t ≠ i ↔ t < j + 1 ∧ t ≠ i := by omega
      simp only [hiff]
    -- Row `j` is still untouched, and so is the pivot row.
    · have hji : ¬ (j < j ∧ j ≠ i) := by omega
      have hii : ¬ (i < j ∧ i ≠ i) := by omega
      rw [if_neg hij, getVal_ofFn hj, ok_bind, if_neg hji]
      by_cases hzero : (f j).coeff i = 0
      · rw [if_neg (by simpa using hzero)]
        apply congrArg Except.ok
        apply ofFn_congr
        intro t _
        by_cases htj : t = j
        · subst htj
          simp [clearedRow, hzero]
        · have hiff : t < j ∧ t ≠ i ↔ t < j + 1 ∧ t ≠ i := by omega
          simp only [hiff]
      · have hadd := addScaledRow_ofFn env (f := fun t =>
          if t < j ∧ t ≠ i then clearedRow env.policy k i (f i) (f t) else f t) hj hi
          (by rw [if_neg hji]; exact (hok j hj).wellFormed)
          (by rw [if_neg hii]; exact (hok i hi).wellFormed) ((f j).coeff i)
        rw [if_pos hzero, hadd]
        apply congrArg Except.ok
        apply ofFn_congr
        intro t _
        rw [if_neg hji, if_neg hii, Function.update_apply]
        by_cases htj : t = j
        · subst htj
          have hne : t < t + 1 ∧ t ≠ i := by omega
          rw [if_pos rfl, if_pos hne, clearedRow, if_pos hzero]
        · have hiff : t < j ∧ t ≠ i ↔ t < j + 1 ∧ t ≠ i := by omega
          simp only [htj, if_false, hiff]
  · apply ofFn_congr
    intro t ht
    by_cases hti : t = i <;> simp [hti, ht]

theorem eliminateColumn_ofFn (env : Platform) (hi : i < k) (hok : ∀ t < k, RowOk k env.blockSize (f t)) :
    (∃ p inv, i ≤ p ∧ p < k ∧ (f p).coeff i ≠ 0 ∧ (∀ q, i ≤ q → q < p → (f q).coeff i = 0) ∧
        gfInv ((f p).coeff i) = .ok inv ∧
        eliminateColumn env (ofFn k f) i = .ok (some (ofFn k (pivotRows env.policy k f i p inv)))) ∨
      (eliminateColumn env (ofFn k f) i = .ok none ∧
        ∀ q, i ≤ q → q < k → (f q).coeff i = 0) := by
  rcases findPivot_ofFn (f := f) hi with ⟨p, hfind, hip, hp, hne, hfirst⟩ | ⟨hfind, hnone⟩
  · obtain ⟨inv, hinv, -⟩ := GF256.gfInv_of_ne hne
    refine .inl ⟨p, inv, hip, hp, hne, hfirst, hinv, ?_⟩
    have hswap : ∀ t < k, RowOk k env.blockSize
        (Function.update (fun t => f (Equiv.swap i p t)) i ((f p).scale env.policy inv) t) := by
      intro t ht
      rw [Function.update_apply]
      split
      · exact (hok p hp).scale env.policy inv
      · exact hok _ (swap_lt hi hp ht)
    rw [eliminateColumn, hfind, ok_bind]
    simp only [swapRows_ofFn hi hp, ok_bind, getVal_ofFn hi, Equiv.swap_apply_left, hinv,
      scaleRow_ofFn env hi, clearColumn_ofFn hi hswap, pure_eq_ok]
    refine congrArg (Except.ok ∘ some) (ofFn_congr fun t _ => ?_)
    by_cases hti : t = i
    · simp [hti, Fec.pivotRows]
    · simp [hti, Fec.pivotRows]
  · exact .inr ⟨by rw [eliminateColumn, hfind]; rfl, hnone⟩

/-- The column loop does not abort, and it keeps the shape of the rows. -/
theorem eliminateColumns_ok (env : Platform) (rank : ℕ) {n : ℕ} (hcount : i + n = k)
    (hok : ∀ t < k, RowOk k env.blockSize (f t)) :
    ∃ rank' g, eliminateColumns env k n i rank (ofFn k f) = .ok (rank', ofFn k g) ∧
      (∀ t < k, RowOk k env.blockSize (g t)) ∧ rank' ≤ rank + n := by
  induction n generalizing i rank f with
  | zero => exact ⟨rank, f, rfl, hok, le_rfl⟩
  | succ n ih =>
      rcases eliminateColumn_ofFn env (i := i) (by omega) hok with
        ⟨p, inv, -, hp, -, -, -, hstep⟩ | ⟨hstep, -⟩
      · have hok' := RowOk.pivotRows hok (by omega : i < k) hp env.policy inv
        rw [eliminateColumns, hstep, ok_bind]
        by_cases hdone : rank + 1 = k
        · exact ⟨rank + 1, _, if_pos hdone, hok', by omega⟩
        · obtain ⟨rank', g, hrun, hg, hle⟩ := ih (rank + 1) (i := i + 1) (by omega) hok'
          exact ⟨rank', g, by simpa only [if_neg hdone] using hrun, hg, by omega⟩
      · obtain ⟨rank', g, hrun, hg, hle⟩ := ih rank (i := i + 1) (by omega) hok
        exact ⟨rank', g, by rw [eliminateColumns, hstep]; exact hrun, hg, by omega⟩

/-! ## The abstract system -/

def blockVec (width : ℕ) (p : List UInt8) (j : Fin width) : GF256 := ⟨p.getD j 0⟩

/-- The rows hold the coefficients of the system and, in the first bytes of their payloads, its
right-hand sides. -/
structure Represents {width : ℕ} (blockSize : ℕ) (f : ℕ → SparseRow)
    (s : LinearSystem k GF256 (Fin width → GF256)) : Prop where
  rowOk : ∀ t < k, RowOk k blockSize (f t)
  coeff : ∀ t c : Fin k, GF256.mk ((f t).coeff c) = s.coeff t c
  payload : ∀ t : Fin k, (f t).payload.map (blockVec width) = s.payload t

open LinearSystem GF256

variable {w : ℕ}

theorem blockVec_scale {p : List UInt8} (hp : w ≤ p.length) (factor : UInt8) :
    blockVec w (p.map fun b => gfMulTable b factor) = mk factor • blockVec w p := by
  funext j
  have hj : j.val < p.length := by omega
  simp [blockVec, List.getD_eq_getElem?_getD, hj, mk_gfMulTable, mul_comm]

theorem blockVec_addScaled {src tgt : List UInt8} (hsrc : w ≤ src.length)
    (htgt : w ≤ tgt.length) (factor : UInt8) :
    blockVec w (SparseRow.addScaledBytes .scalar factor src tgt) =
      blockVec w tgt - mk factor • blockVec w src := by
  funext j
  have hj : j.val < src.length := by omega
  have hj' : j.val < tgt.length := by omega
  simp [blockVec, SparseRow.addScaledBytes, List.getD_eq_getElem?_getD, hj, hj', gfMulAdd,
    mk_gfMulTable, mk_xor, sub_eq_add, add_comm]

private theorem payload_cleared {pivot row : SparseRow} (hw : w ≤ B) (hpivot : RowOk k B pivot)
    (hrow : RowOk k B row) :
    (clearedRow .scalar k i pivot row).payload.map (blockVec w) =
      combine (mk (row.coeff i)) (pivot.payload.map (blockVec w))
        (row.payload.map (blockVec w)) := by
  unfold clearedRow
  split
  · unfold SparseRow.addScaled
    cases hp : pivot.payload with
    | none => simp [combine]
    | some src =>
        cases hr : row.payload with
        | none => simp [combine]
        | some tgt =>
            simp [combine, blockVec_addScaled (hw.trans_eq (hpivot.payload_length src hp).symm)
              (hw.trans_eq (hrow.payload_length tgt hr).symm)]
  · rename_i hzero
    rw [not_not.mp hzero, mk_zero]
    cases pivot.payload <;> cases row.payload <;> simp [combine]

private theorem represents_pivotStep {s : LinearSystem k GF256 (Fin w → GF256)} (hw : w ≤ B)
    (h : Represents B f s) {i p : Fin k} {inv : UInt8} (hne : (f p).coeff i ≠ 0)
    (hinv : gfInv ((f p).coeff i) = .ok inv) :
    Represents B (pivotRows .scalar k f i p inv) (s.pivotStep i p) := by
  have hinv' : mk inv = (s.coeff p i)⁻¹ := by
    obtain ⟨c, hc, hmk⟩ := gfInv_of_ne hne
    rw [hc, Except.ok.injEq] at hinv
    rw [← hinv, hmk, h.coeff]
  have hswap : ∀ t : Fin k, Equiv.swap i.val p.val t.val = (Equiv.swap i p t).val :=
    fun t => Fin.val_injective.swap_apply i p t
  have hpivot : ∀ c : Fin k, mk (((f p).scale .scalar inv).coeff c) =
      (s.coeff p i)⁻¹ * s.coeff p c := by
    intro c
    rw [SparseRow.coeff_scale, gfMul_scalar, mk_gfMulTable, hinv', h.coeff, mul_comm]
  have hpivotPayload : ((f p).scale .scalar inv).payload.map (blockVec w) =
      (s.payload p).map fun v => (s.coeff p i)⁻¹ • v := by
    rw [← h.payload p]
    cases hp : (f p).payload with
    | none => simp [SparseRow.scale, hp]
    | some q =>
        have hlen := (h.rowOk p p.isLt).payload_length q hp
        simp [SparseRow.scale, hp, blockVec_scale (hw.trans_eq hlen.symm), hinv']
  refine ⟨RowOk.pivotRows h.rowOk i.isLt p.isLt .scalar inv, ?_, ?_⟩
  · intro t c
    by_cases hti : t = i
    · simp [Fec.pivotRows, LinearSystem.pivotStep, pivotCoeff, hti, hpivot]
    · have hval : t.val ≠ i.val := fun heq => hti (Fin.ext heq)
      simp only [Fec.pivotRows, LinearSystem.pivotStep, pivotCoeff, hti, hval, if_false, hswap]
      unfold clearedRow
      split
      · rw [SparseRow.coeff_addScaled _ _ c.isLt, mk_xor, gfMul_scalar, mk_gfMulTable, hpivot,
          h.coeff, h.coeff, sub_eq_add, mul_comm]
      · rename_i hzero
        rw [← h.coeff _ i, not_not.mp hzero, mk_zero, zero_mul, sub_zero, h.coeff]
  · intro t
    by_cases hti : t = i
    · simp [Fec.pivotRows, LinearSystem.pivotStep, hti, hpivotPayload]
    · have hval : t.val ≠ i.val := fun heq => hti (Fin.ext heq)
      have hscaled : RowOk k B ((f p).scale .scalar inv) :=
        (h.rowOk p p.isLt).scale .scalar inv
      simp only [Fec.pivotRows, LinearSystem.pivotStep, hti, hval, if_false, hswap]
      rw [payload_cleared hw hscaled (h.rowOk _ (Equiv.swap i p t).isLt), hpivotPayload, h.coeff,
        h.payload]

/-- The column loop runs the abstract elimination to its end, or stops at a dependent column. -/
theorem eliminateColumns_reaches {s₀ s : LinearSystem k GF256 (Fin w → GF256)} (hw : w ≤ B)
    {count : ℕ} (hcount : i + count = k) (h : Represents B f s) (hreach : s₀.Reaches i s) :
    (∃ g t, eliminateColumns ⟨.scalar, B⟩ k count i i (ofFn k f) = .ok (k, ofFn k g) ∧
        Represents B g t ∧ s₀.Reaches k t) ∨
      (∃ rank g, eliminateColumns ⟨.scalar, B⟩ k count i i (ofFn k f) = .ok (rank, ofFn k g) ∧
        rank < k ∧ (∀ t < k, RowOk k B (g t)) ∧ s₀.Stuck) := by
  induction count generalizing i f s with
  | zero =>
      obtain rfl : i = k := by omega
      exact .inl ⟨f, s, rfl, h, hreach⟩
  | succ count ih =>
      have hi : i < k := by omega
      rcases eliminateColumn_ofFn ⟨.scalar, B⟩ hi h.rowOk with
        ⟨p, inv, hip, hp, hne, hfirst, hinv, hstep⟩ | ⟨hstep, hnone⟩
      · have hpivot : s.IsPivot ⟨i, hi⟩ ⟨p, hp⟩ := by
          refine ⟨hip, ?_, fun t h1 h2 => ?_⟩
          · rw [← h.coeff, Ne, mk_eq_zero]
            exact hne
          · rw [← h.coeff, mk_eq_zero]
            exact hfirst t h1 h2
        have h' := represents_pivotStep hw h (i := ⟨i, hi⟩) (p := ⟨p, hp⟩) hne hinv
        have hreach' : s₀.Reaches (i + 1) (s.pivotStep ⟨i, hi⟩ ⟨p, hp⟩) :=
          .step ⟨i, hi⟩ ⟨p, hp⟩ hreach hpivot
        rw [eliminateColumns, hstep, ok_bind]
        by_cases hdone : i + 1 = k
        · left
          refine ⟨_, _, ?_, h', hdone ▸ hreach'⟩
          simp only [if_pos hdone]
          rw [pure_eq_ok, hdone]
        · simp only [if_neg hdone]
          exact ih (by omega) h' hreach'
      · right
        obtain ⟨rank, g, hrun, hg, hle⟩ := eliminateColumns_ok ⟨.scalar, B⟩ i
          (i := i + 1) (n := count) (by omega) h.rowOk
        refine ⟨rank, g, by rw [eliminateColumns, hstep]; exact hrun, by omega, hg,
          ⟨i, hi⟩, s, hreach, fun r hr => ?_⟩
        rw [← h.coeff, mk_eq_zero]
        exact hnone r hr r.isLt

end QuicFuscate.Fec
