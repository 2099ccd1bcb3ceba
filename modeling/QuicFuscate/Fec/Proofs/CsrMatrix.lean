import QuicFuscate.Fec.CsrMatrix
import Mathlib.Data.List.Basic
import Mathlib.Logic.Equiv.Basic

/-!
# Row operations on compressed rows

Every matrix the decoder builds lays out a list of sparse rows.  Each operation on the flat arrays
is shown to be the plain operation on that list; later proofs use these equations and never look
at the arrays.
-/

namespace QuicFuscate.Fec

open Framework

/-- A row of the matrix: its entries in storage order and its payload. -/
structure SparseRow where
  entries : List (ℕ × UInt8)
  payload : Option (List UInt8)
  deriving DecidableEq

namespace SparseRow

def coeff (r : SparseRow) (c : ℕ) : UInt8 := (r.entries.lookup c).getD 0

structure WellFormed (n : ℕ) (r : SparseRow) : Prop where
  nodup : (r.entries.map Prod.fst).Nodup
  bounded : ∀ e ∈ r.entries, e.1 < n

def scale (policy : SimdPolicy) (factor : UInt8) (r : SparseRow) : SparseRow where
  entries := r.entries.map fun e => (e.1, gfMul policy e.2 factor)
  payload := r.payload.map fun p => p.map fun b => gfMul policy b factor

def addScaledBytes (policy : SimdPolicy) (factor : UInt8) (src tgt : List UInt8) : List UInt8 :=
  tgt.mapIdx fun i x => if i < src.length then gfMulAdd policy factor (src.getD i 0) x else x

/-- `target + factor * source`, coefficients and payloads. -/
def addScaled (policy : SimdPolicy) (n : ℕ) (factor : UInt8) (source target : SparseRow) :
    SparseRow where
  entries := nonzeroEntries ((List.range n).map fun c =>
    target.coeff c ^^^ gfMul policy (source.coeff c) factor)
  payload := match source.payload, target.payload with
    | some src, some tgt => some (addScaledBytes policy factor src tgt)
    | _, p => p

end SparseRow

namespace CsrMatrix

/-- Start positions of the rows, the first one at `base`, and the end of the last one. -/
def offsets : ℕ → List SparseRow → List ℕ
  | base, [] => [base]
  | base, r :: rows => base :: offsets (base + r.entries.length) rows

def total (rows : List SparseRow) : ℕ := (rows.flatMap SparseRow.entries).length

/-- The layout of a list of rows. -/
def ofRows (numCols : ℕ) (rows : List SparseRow) : CsrMatrix where
  values := (rows.flatMap SparseRow.entries).map Prod.snd
  colIndices := (rows.flatMap SparseRow.entries).map Prod.fst
  rowPtr := offsets 0 rows
  payloads := rows.map SparseRow.payload
  numCols := numCols

/-! ## Row pointers -/

theorem offsets_length (base : ℕ) (rows : List SparseRow) :
    (offsets base rows).length = rows.length + 1 := by
  induction rows generalizing base with
  | nil => rfl
  | cons r rows ih => simp [offsets, ih]

private theorem offsets_getElem? {base i : ℕ} {rows : List SparseRow} (h : i ≤ rows.length) :
    (offsets base rows)[i]? = some (base + total (rows.take i)) := by
  induction rows generalizing base i with
  | nil =>
      obtain rfl : i = 0 := Nat.le_zero.mp h
      simp [offsets, total]
  | cons r rows ih =>
      cases i with
      | zero => simp [offsets, total]
      | succ i =>
          rw [offsets, List.getElem?_cons_succ, ih (by simpa using h)]
          simp [total, Nat.add_assoc]

private theorem offsets_add (base d : ℕ) (rows : List SparseRow) :
    offsets (base + d) rows = (offsets base rows).map (· + d) := by
  induction rows generalizing base with
  | nil => rfl
  | cons r rows ih =>
      simp only [offsets, List.map_cons, ← ih]
      rw [Nat.add_right_comm]

private theorem offsets_take {base : ℕ} (pre rows rows' : List SparseRow) :
    (offsets base (pre ++ rows)).take (pre.length + 1) =
      (offsets base (pre ++ rows')).take (pre.length + 1) := by
  induction pre generalizing base with
  | nil => cases rows <;> cases rows' <;> simp [offsets]
  | cons r pre ih => simpa [offsets] using ih

private theorem offsets_drop (base : ℕ) (pre : List SparseRow) (r : SparseRow)
    (post : List SparseRow) :
    (offsets base (pre ++ r :: post)).drop (pre.length + 1) =
      offsets (base + total pre + r.entries.length) post := by
  induction pre generalizing base with
  | nil => simp [offsets, total]
  | cons q pre ih =>
      have hrec := ih (base + q.entries.length)
      simpa [offsets, total, Nat.add_assoc] using hrec

private theorem shiftPtrs_ok (pre post : List SparseRow) (r r' : SparseRow)
    {f : ℕ → Checked ℕ}
    (h : ∀ b, f (b + r.entries.length) = .ok (b + r'.entries.length)) :
    shiftPtrs (offsets 0 (pre ++ r :: post)) pre.length f =
      .ok (offsets 0 (pre ++ r' :: post)) := by
  have hrest : (offsets (0 + total pre + r.entries.length) post).mapM f =
      .ok (offsets (0 + total pre + r'.entries.length) post) := by
    generalize hb : 0 + total pre = b
    rw [offsets_add, offsets_add, List.mapM_map]
    exact mapM_of_forall_ok fun x _ => h x
  rw [shiftPtrs, offsets_drop, hrest, offsets_take pre (r :: post) (r' :: post),
    ← offsets_drop 0 pre r' post]
  simp only [ok_bind, pure_eq_ok, List.take_append_drop]

/-! ## Reading -/

variable {n i : ℕ} {rows : List SparseRow}

@[simp] theorem ofRows_numRows (n : ℕ) (rows : List SparseRow) :
    (ofRows n rows).numRows = rows.length := by
  simp [numRows, ofRows, offsets_length]

@[simp] theorem ofRows_numCols (n : ℕ) (rows : List SparseRow) : (ofRows n rows).numCols = n := rfl

@[simp] theorem ofRows_payloads (n : ℕ) (rows : List SparseRow) :
    (ofRows n rows).payloads = rows.map SparseRow.payload := rfl

theorem getPayload_ofRows (hi : i < rows.length) :
    (ofRows n rows).getPayload i = .ok rows[i].payload := by
  rw [getPayload, readAt_of_lt (by simpa using hi)]
  simp

private theorem total_take_succ (hi : i < rows.length) :
    total (rows.take (i + 1)) = total (rows.take i) + rows[i].entries.length := by
  rw [List.take_succ_eq_append_getElem hi, total, List.flatMap_append, List.length_append,
    List.flatMap_cons, List.flatMap_nil, List.append_nil, total]

private theorem flat_split (hi : i < rows.length) :
    rows.flatMap SparseRow.entries = (rows.take i).flatMap SparseRow.entries ++
      (rows[i].entries ++ (rows.drop (i + 1)).flatMap SparseRow.entries) := by
  have hsplit : rows = rows.take i ++ rows[i] :: rows.drop (i + 1) := by
    rw [← List.drop_eq_getElem_cons hi, List.take_append_drop]
  conv_lhs => rw [hsplit]
  rw [List.flatMap_append, List.flatMap_cons]

private theorem readPtr_start (hi : i < rows.length) :
    readAt (ofRows n rows).rowPtr i = .ok (total (rows.take i)) := by
  rw [readAt_eq_ok]
  exact (offsets_getElem? hi.le).trans (by rw [Nat.zero_add])

private theorem readPtr_stop (hi : i < rows.length) :
    readAt (ofRows n rows).rowPtr (i + 1) =
      .ok (total (rows.take i) + rows[i].entries.length) := by
  rw [readAt_eq_ok, ← total_take_succ hi]
  exact (offsets_getElem? (i := i + 1) hi).trans (by rw [Nat.zero_add])

private theorem flat_getElem? (hi : i < rows.length) {j : ℕ} (hj : j < rows[i].entries.length) :
    (rows.flatMap SparseRow.entries)[total (rows.take i) + j]? = some rows[i].entries[j] := by
  rw [flat_split hi, total, List.getElem?_append_right (Nat.le_add_right _ _),
    Nat.add_sub_cancel_left, List.getElem?_append_left hj, List.getElem?_eq_getElem hj]

private theorem readEntry (hi : i < rows.length) {j : ℕ} (hj : j < rows[i].entries.length) :
    readAt (ofRows n rows).colIndices (total (rows.take i) + j) = .ok rows[i].entries[j].1 ∧
      readAt (ofRows n rows).values (total (rows.take i) + j) = .ok rows[i].entries[j].2 := by
  simp only [readAt_eq_ok, ofRows, List.getElem?_map, flat_getElem? hi hj, Option.map_some,
    and_self]

theorem rowEntries_ofRows (hi : i < rows.length) :
    (ofRows n rows).rowEntries i = .ok rows[i].entries := by
  have hread : ∀ l ≤ rows[i].entries.length,
      (List.range' (total (rows.take i)) l).mapM (fun p => do
        return (← readAt (ofRows n rows).colIndices p, ← readAt (ofRows n rows).values p)) =
      .ok (rows[i].entries.take l) := by
    intro l
    induction l with
    | zero => intro _; rfl
    | succ l ih =>
        intro hl
        obtain ⟨hcol, hval⟩ := readEntry (n := n) hi (j := l) hl
        rw [List.range'_1_concat, List.mapM_append, ih (by omega),
          List.take_succ_eq_append_getElem hl]
        simp only [ok_bind, List.mapM_cons, List.mapM_nil, hcol, hval, pure_eq_ok]
  rw [rowEntries, readPtr_start hi, ok_bind, readPtr_stop hi, ok_bind, Nat.add_sub_cancel_left,
    hread _ le_rfl, List.take_length]

theorem getVal_ofRows (hi : i < rows.length) (c : ℕ) :
    (ofRows n rows).getVal i c = .ok (rows[i].coeff c) := by
  -- The scan from entry `j` on looks the column up in the remaining entries.
  have hscan : ∀ l j, j + l = rows[i].entries.length →
      (ofRows n rows).scanEntries c l (total (rows.take i) + j) =
        .ok (((rows[i].entries.drop j).lookup c).getD 0) := by
    intro l
    induction l with
    | zero =>
        intro j hj
        rw [List.drop_of_length_le (by omega)]
        rfl
    | succ l ih =>
        intro j hj
        have hlt : j < rows[i].entries.length := by omega
        obtain ⟨hcol, hval⟩ := readEntry (n := n) hi hlt
        rw [scanEntries, hcol, ok_bind, List.drop_eq_getElem_cons hlt, List.lookup_cons]
        by_cases hc : rows[i].entries[j].1 = c
        · rw [if_pos hc, hval, beq_iff_eq.mpr hc.symm]
          rfl
        · rw [if_neg hc, Nat.add_assoc, ih (j + 1) (by omega), beq_eq_false_iff_ne.mpr (Ne.symm hc)]
  have hall := hscan rows[i].entries.length 0 (Nat.zero_add _)
  rw [getVal, readPtr_start hi, ok_bind, readPtr_stop hi, ok_bind, Nat.add_sub_cancel_left]
  exact hall

/-! ## Splicing -/

private theorem set_split {α : Type} {xs : List α} {i : ℕ} (hi : i < xs.length) (x : α) :
    xs = xs.take i ++ xs[i] :: xs.drop (i + 1) ∧
      xs.set i x = xs.take i ++ x :: xs.drop (i + 1) := by
  refine ⟨?_, List.set_eq_take_append_cons_drop.trans (if_pos hi)⟩
  rw [← List.drop_eq_getElem_cons hi, List.take_append_drop]

private theorem ofRows_set (hi : i < rows.length) (es : List (ℕ × UInt8)) :
    ofRows n (rows.set i { rows[i] with entries := es }) =
      { ofRows n rows with
        values := (ofRows n rows).values.take (total (rows.take i)) ++ (es.map Prod.snd ++
          (ofRows n rows).values.drop (total (rows.take i) + rows[i].entries.length))
        colIndices := (ofRows n rows).colIndices.take (total (rows.take i)) ++ (es.map Prod.fst ++
          (ofRows n rows).colIndices.drop (total (rows.take i) + rows[i].entries.length))
        rowPtr := offsets 0 (rows.set i { rows[i] with entries := es }) } := by
  have hflat : (rows.set i { rows[i] with entries := es }).flatMap SparseRow.entries =
      (rows.take i).flatMap SparseRow.entries ++
        (es ++ (rows.drop (i + 1)).flatMap SparseRow.entries) := by
    rw [(set_split hi _).2, List.flatMap_append, List.flatMap_cons]
  have hpayload : (rows.set i { rows[i] with entries := es }).map SparseRow.payload =
      rows.map SparseRow.payload := by
    rw [List.map_set, ← List.getElem_map SparseRow.payload (h := by simpa using hi),
      List.set_getElem_self]
  have htake : (rows.flatMap SparseRow.entries).take (total (rows.take i)) =
      (rows.take i).flatMap SparseRow.entries := by
    rw [flat_split hi, total, List.take_left]
  have hdrop : (rows.flatMap SparseRow.entries).drop
      (total (rows.take i) + rows[i].entries.length) =
      (rows.drop (i + 1)).flatMap SparseRow.entries := by
    rw [flat_split hi, total, ← List.drop_drop, List.drop_left, List.drop_left]
  simp only [ofRows, hflat, hpayload, ← List.map_take, ← List.map_drop, htake, hdrop,
    List.map_append]

private theorem shiftPtrs_set (hi : i < rows.length) (es : List (ℕ × UInt8)) {f : ℕ → Checked ℕ}
    (h : ∀ b, f (b + rows[i].entries.length) = .ok (b + es.length)) :
    shiftPtrs (offsets 0 rows) i f =
      .ok (offsets 0 (rows.set i { rows[i] with entries := es })) := by
  obtain ⟨hrows, hset⟩ := set_split hi { rows[i] with entries := es }
  have hlen : (rows.take i).length = i := List.length_take_of_le hi.le
  have hshift := shiftPtrs_ok (rows.take i) (rows.drop (i + 1)) rows[i]
    { rows[i] with entries := es } h
  rw [hlen, ← hset, ← hrows] at hshift
  exact hshift

private theorem total_add_length_le (hi : i < rows.length) :
    total (rows.take i) + rows[i].entries.length ≤ (rows.flatMap SparseRow.entries).length := by
  rw [flat_split hi, total, List.length_append, List.length_append]
  omega

private theorem clearRow_ofRows (hi : i < rows.length) :
    (ofRows n rows).clearRow i = .ok (ofRows n (rows.set i { rows[i] with entries := [] })) := by
  have hle := total_add_length_le hi
  rw [clearRow, readPtr_start hi, ok_bind, readPtr_stop hi, ok_bind,
    checkedSub_of_le (Nat.le_add_right _ _), ok_bind, Nat.add_sub_cancel_left]
  by_cases hempty : rows[i].entries.length = 0
  · have hself : ({ rows[i] with entries := [] } : SparseRow) = rows[i] := by
      rw [← List.length_eq_zero_iff.mp hempty]
    rw [if_pos hempty, hself, List.set_getElem_self]
    rfl
  · have hptr := shiftPtrs_set hi [] (f := fun p => checkedSub p rows[i].entries.length)
      (fun b => by rw [checkedSub_of_le (Nat.le_add_left _ _), Nat.add_sub_cancel]; rfl)
    have hvalues := drainRange_of_le (ofRows n rows).values
      (Nat.le_add_right (total (rows.take i)) rows[i].entries.length)
      (by rw [ofRows, List.length_map]; exact hle)
    have hcols := drainRange_of_le (ofRows n rows).colIndices
      (Nat.le_add_right (total (rows.take i)) rows[i].entries.length)
      (by rw [ofRows, List.length_map]; exact hle)
    rw [if_neg hempty, hvalues, ok_bind, hcols, ok_bind,
      show (ofRows n rows).rowPtr = offsets 0 rows from rfl, hptr, ok_bind, pure_eq_ok,
      ofRows_set hi]
    rfl

private theorem foldlM_insertAt {α β : Type} (f : β → α) (es : List β) (xs : List α) {i : ℕ}
    (hi : i ≤ xs.length) :
    es.reverse.foldlM (fun xs e => insertAt xs i (f e)) xs =
      .ok (xs.take i ++ (es.map f ++ xs.drop i)) := by
  induction es with
  | nil => simp
  | cons e es ih =>
      have hlen : i ≤ (xs.take i ++ (es.map f ++ xs.drop i)).length := by
        simp only [List.length_append, List.length_take, List.length_map, List.length_drop]
        omega
      have htake : (xs.take i).length = i := List.length_take_of_le hi
      have hsplit : (xs.take i ++ (es.map f ++ xs.drop i)).take i = xs.take i ∧
          (xs.take i ++ (es.map f ++ xs.drop i)).drop i = es.map f ++ xs.drop i :=
        ⟨List.take_left' htake, List.drop_left' htake⟩
      rw [List.reverse_cons, List.foldlM_append, ih, ok_bind, List.foldlM_cons,
        insertAt_of_le hlen, ok_bind, hsplit.1, hsplit.2]
      rfl

private theorem insertRow_ofRows (hi : i < rows.length) (es : List (ℕ × UInt8)) :
    (ofRows n rows).insertRow i es =
      .ok (ofRows n (rows.set i { rows[i] with entries := es ++ rows[i].entries })) := by
  have hle := total_add_length_le hi
  have hptr := shiftPtrs_set hi (es ++ rows[i].entries)
    (f := fun p => .ok (p + es.length)) (fun b => by rw [List.length_append]; congr 1; omega)
  have hkeep : ∀ {α : Type} (f : ℕ × UInt8 → α),
      ((rows.flatMap SparseRow.entries).map f).drop (total (rows.take i)) =
        rows[i].entries.map f ++ ((rows.flatMap SparseRow.entries).map f).drop
          (total (rows.take i) + rows[i].entries.length) := by
    intro α f
    rw [← List.map_drop, ← List.map_drop, ← List.map_append, ← List.drop_drop, flat_split hi,
      total, List.drop_left, List.drop_left]
  have hvalues : total (rows.take i) ≤ (ofRows n rows).values.length := by
    rw [ofRows, List.length_map]
    omega
  have hcols : total (rows.take i) ≤ (ofRows n rows).colIndices.length := by
    rw [ofRows, List.length_map]
    omega
  rw [insertRow, readPtr_start hi, ok_bind, foldlM_insertAt _ _ _ hvalues, ok_bind,
    foldlM_insertAt _ _ _ hcols, ok_bind,
    show (ofRows n rows).rowPtr = offsets 0 rows from rfl, hptr, ok_bind, pure_eq_ok,
    ofRows_set hi]
  simp only [ofRows, hkeep, List.map_append, List.append_assoc]

/-! ## Row operations -/

private theorem offsets_congr {rows rows' : List SparseRow} (base : ℕ)
    (h : rows.map (·.entries.length) = rows'.map (·.entries.length)) :
    offsets base rows = offsets base rows' := by
  induction rows generalizing base rows' with
  | nil =>
      rw [List.map_nil, eq_comm, List.map_eq_nil_iff] at h
      rw [h]
  | cons r rows ih =>
      cases rows' with
      | nil => simp at h
      | cons r' rows' =>
          simp only [List.map_cons, List.cons.injEq] at h
          rw [offsets, offsets, h.1, ih _ h.2]

/-- Two lists of rows with the same entries differ in their payloads only. -/
private theorem ofRows_congr (n : ℕ) (rows rows' : List SparseRow)
    (h : rows.map SparseRow.entries = rows'.map SparseRow.entries) :
    { ofRows n rows with payloads := rows'.map SparseRow.payload } = ofRows n rows' := by
  have hflat : rows.flatMap SparseRow.entries = rows'.flatMap SparseRow.entries := by
    rw [List.flatMap_def, List.flatMap_def, h]
  have hlens : rows.map (·.entries.length) = rows'.map (·.entries.length) := by
    simpa [Function.comp_def] using congrArg (List.map List.length) h
  simp only [ofRows, hflat, offsets_congr 0 hlens]

private theorem exchangeEntries {hi lo : ℕ} (hhi : hi < rows.length) (hlo : lo < rows.length)
    (hne : hi ≠ lo) :
    ∃ m₁ m₂ m₃, (ofRows n rows).clearRow hi = .ok m₁ ∧ m₁.clearRow lo = .ok m₂ ∧
      m₂.insertRow hi rows[lo].entries = .ok m₃ ∧
      m₃.insertRow lo rows[hi].entries =
        .ok (ofRows n ((rows.set hi { rows[hi] with entries := rows[lo].entries }).set lo
          { rows[lo] with entries := rows[hi].entries })) := by
  refine ⟨_, _, _, clearRow_ofRows hhi, clearRow_ofRows (by simpa using hlo),
    insertRow_ofRows (by simpa using hhi) _, ?_⟩
  rw [insertRow_ofRows (by simpa using hlo)]
  congr 2
  apply List.ext_getElem
  · simp
  · intro j hj _
    by_cases hjl : j = lo
    · subst hjl
      simp [hne, hne.symm]
    · by_cases hjh : j = hi
      · subst hjh
        simp [hne, hne.symm]
      · simp [Ne.symm hjl, Ne.symm hjh]

theorem swapRows_ofRows {r1 r2 : ℕ} (h1 : r1 < rows.length) (h2 : r2 < rows.length) :
    (ofRows n rows).swapRows r1 r2 = .ok (ofRows n ((rows.set r1 rows[r2]).set r2 rows[r1])) := by
  unfold swapRows
  by_cases heq : r1 = r2
  · subst heq
    simp
  have hpay : swapAt (rows.map SparseRow.payload) r1 r2 =
      .ok (((rows.set r1 rows[r2]).set r2 rows[r1]).map SparseRow.payload) := by
    rw [swapAt_of_lt (by simpa using h1) (by simpa using h2)]
    simp [List.map_set]
  have hpayload : ∀ (i j : ℕ) (hi : i < rows.length) (hj : j < rows.length) (es fs),
      ((rows.set i { rows[i] with entries := es }).set j { rows[j] with entries := fs }).map
        SparseRow.payload = rows.map SparseRow.payload := by
    intro i j hi hj es fs
    rw [List.map_set, List.map_set, ← List.getElem_map SparseRow.payload (h := by simpa using hi),
      List.set_getElem_self, ← List.getElem_map SparseRow.payload (h := by simpa using hj),
      List.set_getElem_self]
  rw [if_neg heq, rowEntries_ofRows h1, ok_bind, rowEntries_ofRows h2, ok_bind]
  by_cases hgt : r1 > r2
  · obtain ⟨m₁, m₂, m₃, e₁, e₂, e₃, e₄⟩ := exchangeEntries (n := n) h1 h2 heq
    simp only [if_pos hgt, e₁, e₂, e₃, e₄, ok_bind, ofRows_payloads, hpayload r1 r2 h1 h2, hpay,
      pure_eq_ok]
    exact congrArg Except.ok (ofRows_congr n _ _ (by simp [List.map_set]))
  · obtain ⟨m₁, m₂, m₃, e₁, e₂, e₃, e₄⟩ := exchangeEntries (n := n) h2 h1 (Ne.symm heq)
    simp only [if_neg hgt, e₁, e₂, e₃, e₄, ok_bind, ofRows_payloads, hpayload r2 r1 h2 h1, hpay,
      pure_eq_ok]
    exact congrArg Except.ok (ofRows_congr n _ _ (by
      rw [List.set_comm _ _ (Ne.symm heq)]
      simp [List.map_set]))

theorem appendRow_ofRows (row : List UInt8) (payload : Option (List UInt8)) :
    (ofRows n rows).appendRow row payload = ofRows n (rows ++ [⟨nonzeroEntries row, payload⟩]) := by
  have hptr : ∀ base, offsets base (rows ++ [⟨nonzeroEntries row, payload⟩]) =
      offsets base rows ++ [base + total rows + (nonzeroEntries row).length] := by
    intro base
    induction rows generalizing base with
    | nil => simp [offsets, total]
    | cons r rows ih => simp [offsets, total, ih, Nat.add_assoc]
  simp [appendRow, ofRows, hptr, total]

private theorem mapIdx_middle {α : Type} (f : α → α) (xs ys zs : List α) :
    (xs ++ (ys ++ zs)).mapIdx (fun j x => if xs.length ≤ j ∧ j < xs.length + ys.length then f x
      else x) = xs ++ (ys.map f ++ zs) := by
  rw [List.mapIdx_eq_iff]
  intro j
  by_cases h1 : j < xs.length
  · have hnot : ¬ xs.length ≤ j := by omega
    simp [List.getElem?_append_left h1, hnot]
  · obtain ⟨d, rfl⟩ := Nat.exists_eq_add_of_le (Nat.not_lt.mp h1)
    simp only [List.getElem?_append_right (Nat.le_add_right _ _), Nat.add_sub_cancel_left]
    by_cases h2 : d < ys.length
    · simp [List.getElem?_append_left, h2]
    · have h2' := Nat.not_lt.mp h2
      have h3 : (ys.map f).length ≤ d := by simpa using h2'
      simp only [List.getElem?_append_right h2', List.getElem?_append_right h3, List.length_map]
      cases h : zs[d - ys.length]? <;> simp [h2]

private theorem scaleValues (policy : SimdPolicy) (hi : i < rows.length) (factor : UInt8) :
    loopFromTo (total (rows.take i)) (total (rows.take i) + rows[i].entries.length)
      (ofRows n rows).values (fun i values => do
        writeAt values i (gfMul policy (← readAt values i) factor)) =
      .ok (ofRows n (rows.set i (rows[i].scale policy factor))).values := by
  have hle : total (rows.take i) + rows[i].entries.length ≤ (ofRows n rows).values.length := by
    rw [ofRows, List.length_map]
    exact total_add_length_le hi
  rw [loopFromTo_map (fun _ x => gfMul policy x factor) (fun j x ys _ hj hlen hx => by
    rw [readAt_eq_ok.mpr hx, ok_bind, writeAt_of_lt (by omega)]) hle]
  have hmiddle := mapIdx_middle (fun x => gfMul policy x factor)
    (((rows.take i).flatMap SparseRow.entries).map Prod.snd) (rows[i].entries.map Prod.snd)
    (((rows.drop (i + 1)).flatMap SparseRow.entries).map Prod.snd)
  simp only [List.length_map, ← List.map_append, ← flat_split hi] at hmiddle
  refine congrArg Except.ok (hmiddle.trans ?_)
  rw [ofRows, (set_split hi _).2, List.flatMap_append, List.flatMap_cons]
  simp [SparseRow.scale, Function.comp_def]

theorem scaleRow_ofRows (env : Platform) (hi : i < rows.length) (factor : UInt8) :
    (ofRows n rows).scaleRow env i factor =
      .ok (ofRows n (rows.set i (rows[i].scale env.policy factor))) := by
  have hcols : (ofRows n (rows.set i (rows[i].scale env.policy factor))).colIndices =
      (ofRows n rows).colIndices := by
    rw [ofRows, ofRows, (set_split hi _).2, List.flatMap_append, List.flatMap_cons, flat_split hi]
    simp [SparseRow.scale, Function.comp_def]
  have hptr : (ofRows n (rows.set i (rows[i].scale env.policy factor))).rowPtr =
      (ofRows n rows).rowPtr := by
    apply offsets_congr
    have hi' : i < (rows.map (·.entries.length)).length := by simpa using hi
    have hlen : (rows[i].scale env.policy factor).entries.length =
        (rows.map (·.entries.length))[i] := by simp [SparseRow.scale]
    rw [List.map_set, hlen, List.set_getElem_self]
  have heta : ofRows n (rows.set i (rows[i].scale env.policy factor)) =
      { ofRows n rows with
        values := (ofRows n (rows.set i (rows[i].scale env.policy factor))).values
        payloads := (rows.map SparseRow.payload).set i
          (rows[i].scale env.policy factor).payload } := by
    simp only [← hcols, ← hptr, ← List.map_set]
    rfl
  have hi' : i < (ofRows n rows).payloads.length := by simpa using hi
  rw [scaleRow, readPtr_start hi, ok_bind, readPtr_stop hi, ok_bind, scaleValues _ hi, ok_bind,
    readAt_of_lt hi', ok_bind]
  simp only [ofRows_payloads, List.getElem_map]
  cases hp : rows[i].payload with
  | none =>
      have hsame : (rows.map SparseRow.payload).set i (rows[i].scale env.policy factor).payload =
          rows.map SparseRow.payload := by
        rw [SparseRow.scale, hp, Option.map_none, ← hp,
          ← List.getElem_map SparseRow.payload (h := by simpa using hi), List.set_getElem_self]
      rw [heta, hsame]
      rfl
  | some p =>
      have hloop : loopTo p.length p (fun j payload => do
          writeAt payload j (gfMul env.policy (← readAt payload j) factor)) =
          .ok (p.map fun b => gfMul env.policy b factor) := by
        rw [loopTo_map (fun _ x => gfMul env.policy x factor) (fun j x ys hj hlen hx => by
          rw [readAt_eq_ok.mpr hx, ok_bind, writeAt_of_lt (by omega)]) le_rfl]
        congr 1
        apply List.ext_getElem
        · simp
        · intro j h1 h2
          simp at h1
          simp [h1]
      have hpay : (rows[i].scale env.policy factor).payload =
          some (p.map fun b => gfMul env.policy b factor) := by
        rw [SparseRow.scale, hp, Option.map_some]
      simp only [hloop, ok_bind]
      rw [writeAt_of_lt (by simpa using hi), ok_bind, pure_eq_ok, heta, hpay]

private theorem lookup_eq_none {es : List (ℕ × UInt8)} {c : ℕ} (h : c ∉ es.map Prod.fst) :
    es.lookup c = none := by
  rw [List.lookup_eq_none_iff]
  intro e he
  rw [bne_iff_ne]
  rintro rfl
  exact h (List.mem_map_of_mem he)

private theorem foldlM_scatter {step : List UInt8 → ℕ × UInt8 → Checked (List UInt8)}
    {g : UInt8 → UInt8 → UInt8}
    (hstep : ∀ (dense : List UInt8) e (h : e.1 < dense.length),
      step dense e = .ok (dense.set e.1 (g dense[e.1] e.2)))
    {es : List (ℕ × UInt8)} {dense : List UInt8} (hnodup : (es.map Prod.fst).Nodup)
    (hbound : ∀ e ∈ es, e.1 < dense.length) :
    es.foldlM step dense = .ok (dense.mapIdx fun c x => ((es.lookup c).map (g x)).getD x) := by
  induction es generalizing dense with
  | nil =>
      have hid : dense.mapIdx (fun _ x => x) = dense := List.mapIdx_eq_iff.mpr fun i => by simp
      simp [hid]
  | cons e es ih =>
      have hlt := hbound e (by simp)
      rw [List.map_cons, List.nodup_cons] at hnodup
      rw [List.foldlM_cons, hstep _ _ hlt, ok_bind,
        ih hnodup.2 fun f hf => by simpa using hbound f (by simp [hf])]
      congr 1
      apply List.ext_getElem?
      intro c
      rw [List.getElem?_mapIdx, List.getElem?_mapIdx, List.getElem?_set, List.lookup_cons]
      by_cases hc : e.1 = c
      · subst hc
        simp [hlt, lookup_eq_none hnodup.1]
      · simp [hc, beq_eq_false_iff_ne.mpr (Ne.symm hc)]

theorem densify_ok {r : SparseRow} (h : r.WellFormed n) :
    densify n r.entries = .ok ((List.range n).map r.coeff) := by
  rw [densify, foldlM_scatter (g := fun _ v => v) (fun dense e he => writeAt_of_lt he _) h.nodup
    (by simpa using h.bounded)]
  congr 1
  apply List.ext_getElem
  · simp
  · intro c h1 h2
    simp [SparseRow.coeff]

private theorem addEntries_ok (policy : SimdPolicy) {r : SparseRow} (h : r.WellFormed n)
    (f : ℕ → UInt8) (factor : UInt8) :
    r.entries.foldlM (fun (dense : List UInt8) e => do
      writeAt dense e.1 ((← readAt dense e.1) ^^^ gfMul policy e.2 factor))
        ((List.range n).map f) =
    .ok ((List.range n).map fun c => f c ^^^ gfMul policy (r.coeff c) factor) := by
  rw [foldlM_scatter (g := fun x v => x ^^^ gfMul policy v factor) (fun dense e he => by
    rw [readAt_of_lt he, ok_bind, writeAt_of_lt he]) h.nodup (by simpa using h.bounded)]
  congr 1
  apply List.ext_getElem
  · simp
  · intro c h1 h2
    simp only [List.getElem_mapIdx, List.getElem_map, List.getElem_range, SparseRow.coeff]
    cases r.entries.lookup c <;> simp

private theorem addScaledPayload_ok (env : Platform) (factor : UInt8) (src tgt : List UInt8) :
    addScaledPayload env factor src tgt =
      .ok (SparseRow.addScaledBytes env.policy factor src tgt) := by
  rw [addScaledPayload, unrolledTo_eq,
    loopTo_map (fun i x => gfMulAdd env.policy factor (src.getD i 0) x)
      (fun i x ys hi hlen hx => by
        rw [readAt_getD (by omega) 0, ok_bind, readAt_eq_ok.mpr hx, ok_bind,
          writeAt_of_lt (by omega)])
      (Nat.min_le_left _ _), SparseRow.addScaledBytes]
  congr 1
  apply List.ext_getElem
  · simp
  · intro i h1 h2
    have hlt : i < tgt.length := by simpa using h1
    have hiff : i < min tgt.length src.length ↔ i < src.length := by omega
    simp only [List.getElem_mapIdx, hiff]

theorem addScaledRow_ofRows (env : Platform) {t s : ℕ} (ht : t < rows.length)
    (hs : s < rows.length) (wt : rows[t].WellFormed n) (ws : rows[s].WellFormed n)
    (factor : UInt8) :
    (ofRows n rows).addScaledRow env t s factor =
      .ok (ofRows n (rows.set t (SparseRow.addScaled env.policy n factor rows[s] rows[t]))) := by
  let es := nonzeroEntries ((List.range n).map fun c =>
    rows[t].coeff c ^^^ gfMul env.policy (rows[s].coeff c) factor)
  have hclear : (ofRows n rows).clearRow t =
      .ok (ofRows n (rows.set t { rows[t] with entries := [] })) := clearRow_ofRows ht
  have hinsert : (ofRows n (rows.set t { rows[t] with entries := [] })).insertRow t es =
      .ok (ofRows n (rows.set t { rows[t] with entries := es })) := by
    rw [insertRow_ofRows (by simpa using ht)]
    simp
  have hpayloads : (rows.set t { rows[t] with entries := es }).map SparseRow.payload =
      rows.map SparseRow.payload := by
    rw [List.map_set, ← List.getElem_map SparseRow.payload (h := by simpa using ht),
      List.set_getElem_self]
  have hcongr : ∀ p, { ofRows n (rows.set t { rows[t] with entries := es }) with
      payloads := (rows.map SparseRow.payload).set t p } = ofRows n (rows.set t ⟨es, p⟩) := by
    intro p
    have hsame := ofRows_congr n (rows.set t { rows[t] with entries := es })
      (rows.set t ⟨es, p⟩) (by simp [List.map_set])
    rw [List.map_set] at hsame
    exact hsame
  rw [addScaledRow, rowEntries_ofRows ht, ok_bind, ofRows_numCols, densify_ok wt, ok_bind,
    rowEntries_ofRows hs, ok_bind, addEntries_ok _ ws, ok_bind, hclear, ok_bind, hinsert, ok_bind,
    ofRows_payloads, hpayloads, readAt_of_lt (by simpa using hs), ok_bind,
    readAt_of_lt (by simpa using ht), ok_bind]
  simp only [List.getElem_map]
  cases hsrc : rows[s].payload with
  | none =>
      simp only [SparseRow.addScaled, hsrc, pure_eq_ok]
      rfl
  | some src =>
      cases htgt : rows[t].payload with
      | none =>
          simp only [SparseRow.addScaled, hsrc, htgt, pure_eq_ok]
          rfl
      | some tgt =>
          simp only [SparseRow.addScaled, hsrc, htgt, addScaledPayload_ok, ok_bind]
          rw [writeAt_of_lt (by simpa using ht), ok_bind, pure_eq_ok, ← htgt]
          exact congrArg Except.ok (hcongr _)

end CsrMatrix

/-! ## Rows after an operation -/

theorem mem_nonzeroEntries {row : List UInt8} {e : ℕ × UInt8} :
    e ∈ nonzeroEntries row ↔ row[e.1]? = some e.2 ∧ e.2 ≠ 0 := by
  obtain ⟨c, v⟩ := e
  simp [nonzeroEntries, List.mem_zipIdx_iff_getElem?]

theorem columns_lt_nonzeroEntries (row : List UInt8) :
    ((nonzeroEntries row).map Prod.fst).Pairwise (· < ·) := by
  have hsub : List.Sublist ((nonzeroEntries row).map Prod.fst) (row.zipIdx.map Prod.snd) := by
    rw [nonzeroEntries, List.map_map]
    exact List.filter_sublist.map _
  apply List.Pairwise.sublist hsub
  rw [List.zipIdx_map_snd]
  exact List.pairwise_lt_range'

private theorem nodup_nonzeroEntries (row : List UInt8) : ((nonzeroEntries row).map Prod.fst).Nodup :=
  (columns_lt_nonzeroEntries row).imp Nat.ne_of_lt

private theorem lookup_eq_some_of_nodup {es : List (ℕ × UInt8)} (h : (es.map Prod.fst).Nodup)
    {c : ℕ} {v : UInt8} (hmem : (c, v) ∈ es) : es.lookup c = some v := by
  induction es with
  | nil => simp at hmem
  | cons e es ih =>
      rw [List.map_cons, List.nodup_cons] at h
      rw [List.lookup_cons]
      rcases List.mem_cons.mp hmem with rfl | hmem
      · simp
      · have hne : c ≠ e.1 := by
          rintro rfl
          exact h.1 (List.mem_map.mpr ⟨_, hmem, rfl⟩)
        rw [beq_eq_false_iff_ne.mpr hne]
        exact ih h.2 hmem

namespace SparseRow

variable {n : ℕ} {r s : SparseRow}

theorem coeff_nonzeroEntries (row : List UInt8) (p : Option (List UInt8)) (c : ℕ) :
    coeff ⟨nonzeroEntries row, p⟩ c = row.getD c 0 := by
  rw [coeff, List.getD_eq_getElem?_getD]
  cases hrow : row[c]? with
  | none =>
      rw [CsrMatrix.lookup_eq_none]
      intro hmem
      obtain ⟨e, he, rfl⟩ := List.mem_map.mp hmem
      rw [mem_nonzeroEntries, hrow] at he
      simp at he
  | some v =>
      by_cases hv : v = 0
      · have habsent : c ∉ (nonzeroEntries row).map Prod.fst := by
          intro hmem
          obtain ⟨e, he, rfl⟩ := List.mem_map.mp hmem
          rw [mem_nonzeroEntries, hrow] at he
          exact he.2 ((Option.some.inj he.1).symm.trans hv)
        rw [CsrMatrix.lookup_eq_none habsent, hv]
        rfl
      · rw [lookup_eq_some_of_nodup (nodup_nonzeroEntries row)
          (mem_nonzeroEntries.mpr ⟨hrow, hv⟩)]

theorem wellFormed_nonzeroEntries {row : List UInt8} (h : row.length ≤ n)
    (p : Option (List UInt8)) : WellFormed n ⟨nonzeroEntries row, p⟩ where
  nodup := nodup_nonzeroEntries row
  bounded := by
    intro e he
    obtain ⟨hlt, -⟩ := List.getElem?_eq_some_iff.mp (mem_nonzeroEntries.mp he).1
    exact hlt.trans_le h

theorem WellFormed.scale (h : r.WellFormed n) (policy : SimdPolicy) (factor : UInt8) :
    (r.scale policy factor).WellFormed n where
  nodup := by
    have hfst : (r.scale policy factor).entries.map Prod.fst = r.entries.map Prod.fst := by
      simp [SparseRow.scale, Function.comp_def]
    rw [hfst]
    exact h.nodup
  bounded := by
    intro e he
    obtain ⟨f, hf, rfl⟩ := List.mem_map.mp he
    exact h.bounded f hf

theorem wellFormed_addScaled (policy : SimdPolicy) (factor : UInt8) :
    (addScaled policy n factor s r).WellFormed n := by
  unfold addScaled
  exact wellFormed_nonzeroEntries (by simp) _

theorem coeff_scale (policy : SimdPolicy) (factor : UInt8) (c : ℕ) :
    (r.scale policy factor).coeff c = gfMul policy (r.coeff c) factor := by
  simp only [coeff, scale]
  induction r.entries with
  | nil => simp
  | cons e es ih =>
      rw [List.map_cons, List.lookup_cons, List.lookup_cons]
      split
      · rfl
      · exact ih

theorem coeff_addScaled (policy : SimdPolicy) (factor : UInt8) {c : ℕ} (hc : c < n) :
    (addScaled policy n factor s r).coeff c =
      r.coeff c ^^^ gfMul policy (s.coeff c) factor := by
  unfold addScaled
  rw [coeff_nonzeroEntries, List.getD_eq_getElem _ _ (by simpa using hc)]
  simp

end SparseRow

/-! ## Rows by index -/

namespace CsrMatrix

def ofFn (k : ℕ) (f : ℕ → SparseRow) : CsrMatrix := ofRows k ((List.range k).map f)

variable {k i : ℕ} {f : ℕ → SparseRow}

theorem ofFn_congr {g : ℕ → SparseRow} (h : ∀ i < k, f i = g i) : ofFn k f = ofFn k g := by
  rw [ofFn, ofFn, List.map_congr_left]
  simpa using h

theorem ofRows_eq_ofFn {rows : List SparseRow} (h : rows.length = k) :
    ofRows k rows = ofFn k fun i => rows.getD i ⟨[], none⟩ := by
  rw [ofFn]
  congr 1
  apply List.ext_getElem
  · simpa using h
  · intro i h1 h2
    simp [h1]

@[simp] theorem ofFn_numRows (k : ℕ) (f : ℕ → SparseRow) : (ofFn k f).numRows = k := by
  simp [ofFn]

theorem getVal_ofFn (hi : i < k) (c : ℕ) : (ofFn k f).getVal i c = .ok ((f i).coeff c) := by
  rw [ofFn, getVal_ofRows (by simpa using hi)]
  simp

theorem getPayload_ofFn (hi : i < k) : (ofFn k f).getPayload i = .ok (f i).payload := by
  rw [ofFn, getPayload_ofRows (by simpa using hi)]
  simp

theorem rowEntries_ofFn (hi : i < k) : (ofFn k f).rowEntries i = .ok (f i).entries := by
  rw [ofFn, rowEntries_ofRows (by simpa using hi)]
  simp

theorem swapRows_ofFn {j : ℕ} (hi : i < k) (hj : j < k) :
    (ofFn k f).swapRows i j = .ok (ofFn k fun t => f (Equiv.swap i j t)) := by
  rw [ofFn, swapRows_ofRows (by simpa using hi) (by simpa using hj), range_map_set, range_map_set]
  apply congrArg Except.ok
  apply ofFn_congr
  intro t _
  simp only [List.getElem_map, List.getElem_range, Function.update_apply, Equiv.swap_apply_def]
  split
  · rename_i h; subst h; split
    · rename_i h; rw [h]
    · rfl
  · split <;> rfl

theorem scaleRow_ofFn (env : Platform) (hi : i < k) (factor : UInt8) :
    (ofFn k f).scaleRow env i factor =
      .ok (ofFn k (Function.update f i ((f i).scale env.policy factor))) := by
  rw [ofFn, scaleRow_ofRows _ (by simpa using hi), range_map_set]
  simp [ofFn]

theorem addScaledRow_ofFn (env : Platform) {t s : ℕ} (ht : t < k) (hs : s < k)
    (wt : (f t).WellFormed k) (ws : (f s).WellFormed k) (factor : UInt8) :
    (ofFn k f).addScaledRow env t s factor =
      .ok (ofFn k (Function.update f t (SparseRow.addScaled env.policy k factor (f s) (f t)))) := by
  rw [ofFn, addScaledRow_ofRows _ (by simpa using ht) (by simpa using hs) (by simpa using wt)
    (by simpa using ws), range_map_set]
  simp [ofFn]

end CsrMatrix

end QuicFuscate.Fec
