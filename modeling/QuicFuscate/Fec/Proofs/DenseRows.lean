import QuicFuscate.Fec.Proofs.Gaussian

/-!
# The sparse matrix as a dense one

Every matrix that row operations build from the empty one lays out rows with increasing columns and
nonzero values.  Read densely over GF(2^8), with a payload as the right-hand side of its row, it is the
matrix on which the same elementary operations were performed.
-/

namespace QuicFuscate.Fec

open Framework

/-! ## Dense matrices -/

/-- A dense row with the right-hand side it may carry. -/
structure DenseRow (c w : ℕ) where
  coeffs : Fin c → GF256
  payload : Option (Fin w → GF256)

namespace DenseRow

variable {c w : ℕ}

def scale (a : GF256) (r : DenseRow c w) : DenseRow c w where
  coeffs := a • r.coeffs
  payload := r.payload.map fun v => a • v

/-- `target + a * source`; the right-hand side follows when both rows carry one. -/
def addScaled (a : GF256) (source target : DenseRow c w) : DenseRow c w where
  coeffs := target.coeffs + a • source.coeffs
  payload := match source.payload, target.payload with
    | some v, some u => some (u + a • v)
    | _, p => p

end DenseRow

/-- A row operation. -/
inductive RowOp
  | append (row : List UInt8) (payload : Option (List UInt8))
  | swap (r1 r2 : ℕ)
  | scale (row : ℕ) (factor : UInt8)
  | addScaled (targetRow sourceRow : ℕ) (factor : UInt8)
  deriving DecidableEq, Repr

namespace RowOp

/-- Rows have `c` coefficients, payloads one length `w`; factors of a row are not zero, and no row is
added to itself. -/
def Allowed (c w : ℕ) : RowOp → Prop
  | append row payload => row.length = c ∧ ∀ p ∈ payload, p.length = w
  | swap _ _ => True
  | scale _ factor => factor ≠ 0
  | addScaled targetRow sourceRow _ => targetRow ≠ sourceRow

def OnRows (n : ℕ) : RowOp → Prop
  | append _ _ => True
  | swap r1 r2 => r1 < n ∧ r2 < n
  | scale row _ => row < n
  | addScaled targetRow sourceRow _ => targetRow < n ∧ sourceRow < n

def rowsAfter (n : ℕ) : RowOp → ℕ
  | append _ _ => n + 1
  | _ => n

end RowOp

def AllOnRows : ℕ → List RowOp → Prop
  | _, [] => True
  | n, op :: ops => op.OnRows n ∧ AllOnRows (op.rowsAfter n) ops

/-- The elementary operation on a dense matrix; an operation on rows that do not exist does nothing. -/
def applyDense {c w : ℕ} (D : List (DenseRow c w)) : RowOp → List (DenseRow c w)
  | .append row payload => D ++ [⟨fun j => GF256.mk (row.getD j 0), payload.map (blockVec w)⟩]
  | .swap r1 r2 =>
      match D[r1]?, D[r2]? with
      | some a, some b => (D.set r1 b).set r2 a
      | _, _ => D
  | .scale row factor =>
      match D[row]? with
      | some a => D.set row (a.scale (GF256.mk factor))
      | none => D
  | .addScaled targetRow sourceRow factor =>
      match D[targetRow]?, D[sourceRow]? with
      | some a, some b => D.set targetRow (DenseRow.addScaled (GF256.mk factor) b a)
      | _, _ => D

def buildDense (c w : ℕ) (ops : List RowOp) : List (DenseRow c w) := ops.foldl applyDense []

namespace CsrMatrix

def apply (env : Platform) (m : CsrMatrix) : RowOp → Checked CsrMatrix
  | .append row payload => return m.appendRow row payload
  | .swap r1 r2 => m.swapRows r1 r2
  | .scale row factor => m.scaleRow env row factor
  | .addScaled targetRow sourceRow factor => m.addScaledRow env targetRow sourceRow factor

def build (env : Platform) (c : ℕ) (ops : List RowOp) : Checked CsrMatrix := ops.foldlM (apply env) (CsrMatrix.new c)

/-- The arrays are laid out by the row pointers, rows are sorted, and values and payloads are those of the
dense matrix. -/
structure Refines {c w : ℕ} (m : CsrMatrix) (D : List (DenseRow c w)) : Prop where
  rowPtr_start : m.rowPtr.head? = some 0
  rowPtr_nondecreasing : m.rowPtr.Pairwise (· ≤ ·)
  rowPtr_end : m.rowPtr.getLast? = some m.values.length
  colIndices_length : m.colIndices.length = m.values.length
  numRows_eq : m.numRows = D.length
  payloads_length : m.payloads.length = D.length
  rowEntries_sorted : ∀ i < D.length, ∃ entries, m.rowEntries i = .ok entries ∧
    (entries.map Prod.fst).Pairwise (· < ·) ∧ ∀ e ∈ entries, e.1 < c ∧ e.2 ≠ 0
  getVal_eq : ∀ (i : Fin D.length) (j : Fin c), ∃ v, m.getVal i j = .ok v ∧ GF256.mk v = (D.get i).coeffs j
  getPayload_eq : ∀ i : Fin D.length, ∃ payload, m.getPayload i = .ok payload ∧
    payload.map (blockVec w) = (D.get i).payload ∧ ∀ p ∈ payload, p.length = w

end CsrMatrix

/-! ## Rows -/

structure SortedRow (c w : ℕ) (r : SparseRow) : Prop where
  columns_lt : (r.entries.map Prod.fst).Pairwise (· < ·)
  entries_ok : ∀ e ∈ r.entries, e.1 < c ∧ e.2 ≠ 0
  payload_length : ∀ p ∈ r.payload, p.length = w

namespace SparseRow

def dense (c w : ℕ) (r : SparseRow) : DenseRow c w :=
  ⟨fun j => GF256.mk (r.coeff j), r.payload.map (blockVec w)⟩

end SparseRow

variable {c w B : ℕ} {r s : SparseRow}

theorem SortedRow.wellFormed (h : SortedRow c w r) : r.WellFormed c where
  nodup := h.columns_lt.imp Nat.ne_of_lt
  bounded e he := (h.entries_ok e he).1

private theorem sortedRow_nonzeroEntries {row : List UInt8} {payload : Option (List UInt8)} (hrow : row.length = c)
    (hpayload : ∀ p ∈ payload, p.length = w) : SortedRow c w ⟨nonzeroEntries row, payload⟩ where
  columns_lt := columns_lt_nonzeroEntries row
  entries_ok := by
    intro e he
    obtain ⟨hread, hne⟩ := mem_nonzeroEntries.mp he
    obtain ⟨hlt, -⟩ := List.getElem?_eq_some_iff.mp hread
    exact ⟨hrow ▸ hlt, hne⟩
  payload_length := hpayload

theorem SortedRow.scale (h : SortedRow c w r) {factor : UInt8} (hfactor : factor ≠ 0) :
    SortedRow c w (r.scale .scalar factor) where
  columns_lt := by
    have hfst : (r.scale .scalar factor).entries.map Prod.fst = r.entries.map Prod.fst := by
      simp [SparseRow.scale, Function.comp_def]
    rw [hfst]
    exact h.columns_lt
  entries_ok := by
    intro e he
    obtain ⟨f, hf, rfl⟩ := List.mem_map.mp he
    obtain ⟨hlt, hne⟩ := h.entries_ok f hf
    refine ⟨hlt, fun hzero => ?_⟩
    have hmk := congrArg GF256.mk hzero
    rw [gfMul_scalar, GF256.mk_gfMulTable] at hmk
    exact mul_ne_zero (mt GF256.mk_eq_zero.mp hne) (mt GF256.mk_eq_zero.mp hfactor) hmk
  payload_length := by
    intro p hp
    obtain ⟨q, hq, rfl⟩ := Option.mem_map.mp hp
    rw [List.length_map]
    exact h.payload_length q hq

theorem SortedRow.addScaled (h : SortedRow c w r) (factor : UInt8) :
    SortedRow c w (SparseRow.addScaled .scalar c factor s r) := by
  apply sortedRow_nonzeroEntries (by simp)
  intro p hp
  split at hp
  · rename_i src tgt _ htgt
    cases hp
    rw [SparseRow.addScaledBytes, List.length_mapIdx]
    exact h.payload_length tgt htgt
  · exact h.payload_length p hp

private theorem dense_nonzeroEntries (row : List UInt8) (payload : Option (List UInt8)) :
    (SparseRow.mk (nonzeroEntries row) payload).dense c w =
      ⟨fun j => GF256.mk (row.getD j 0), payload.map (blockVec w)⟩ := by
  simp only [SparseRow.dense, SparseRow.coeff_nonzeroEntries]

theorem SortedRow.dense_scale (h : SortedRow c w r) (factor : UInt8) :
    (r.scale .scalar factor).dense c w = (r.dense c w).scale (GF256.mk factor) := by
  have hcoeffs : (fun j : Fin c => GF256.mk ((r.scale .scalar factor).coeff j)) =
      GF256.mk factor • fun j : Fin c => GF256.mk (r.coeff j) := by
    funext j
    rw [SparseRow.coeff_scale, gfMul_scalar, GF256.mk_gfMulTable, mul_comm]
    rfl
  rw [SparseRow.dense, hcoeffs, DenseRow.scale, SparseRow.dense]
  congr 1
  cases hp : r.payload with
  | none => simp [SparseRow.scale, hp]
  | some p =>
      have hlen := h.payload_length p hp
      simp [SparseRow.scale, hp, blockVec_scale hlen.ge]

theorem SortedRow.dense_addScaled (hs : SortedRow c w s) (hr : SortedRow c w r) (factor : UInt8) :
    (SparseRow.addScaled .scalar c factor s r).dense c w =
      DenseRow.addScaled (GF256.mk factor) (s.dense c w) (r.dense c w) := by
  have hcoeffs : (fun j : Fin c => GF256.mk ((SparseRow.addScaled .scalar c factor s r).coeff j)) =
      (fun j : Fin c => GF256.mk (r.coeff j)) + GF256.mk factor • fun j : Fin c => GF256.mk (s.coeff j) := by
    funext j
    rw [SparseRow.coeff_addScaled _ _ j.isLt, GF256.mk_xor, gfMul_scalar, GF256.mk_gfMulTable, mul_comm]
    rfl
  rw [SparseRow.dense, hcoeffs, DenseRow.addScaled, SparseRow.dense, SparseRow.dense]
  congr 1
  cases hsp : s.payload with
  | none => simp [SparseRow.addScaled, hsp]
  | some src =>
      cases hrp : r.payload with
      | none => simp [SparseRow.addScaled, hsp, hrp]
      | some tgt =>
          have hsrc := hs.payload_length src hsp
          have htgt := hr.payload_length tgt hrp
          have hadd : blockVec w tgt - GF256.mk factor • blockVec w src =
              blockVec w tgt + GF256.mk factor • blockVec w src := by
            funext j
            exact GF256.sub_eq_add _ _
          simp [SparseRow.addScaled, hsp, hrp, blockVec_addScaled hsrc.ge htgt.ge, hadd]

/-! ## The layout -/

namespace CsrMatrix

variable {rows : List SparseRow}

private theorem le_of_mem_offsets {base p : ℕ} (h : p ∈ offsets base rows) : base ≤ p := by
  induction rows generalizing base with
  | nil => exact (List.mem_singleton.mp h).ge
  | cons r rows ih =>
      rcases List.mem_cons.mp h with rfl | h
      · exact le_rfl
      · exact (Nat.le_add_right _ _).trans (ih h)

private theorem offsets_pairwise (base : ℕ) (rows : List SparseRow) : (offsets base rows).Pairwise (· ≤ ·) := by
  induction rows generalizing base with
  | nil => exact List.pairwise_singleton _ _
  | cons r rows ih =>
      rw [offsets, List.pairwise_cons]
      exact ⟨fun p hp => (Nat.le_add_right _ _).trans (le_of_mem_offsets hp), ih _⟩

private theorem offsets_getLast? (base : ℕ) (rows : List SparseRow) :
    (offsets base rows).getLast? = some (base + total rows) := by
  induction rows generalizing base with
  | nil => rfl
  | cons r rows ih =>
      rw [offsets, List.getLast?_cons, ih]
      simp [total, Nat.add_assoc]

private theorem refines_ofRows (h : ∀ r ∈ rows, SortedRow c w r) :
    (ofRows c rows).Refines (rows.map (SparseRow.dense c w)) where
  rowPtr_start := by cases rows <;> rfl
  rowPtr_nondecreasing := offsets_pairwise 0 rows
  rowPtr_end := by
    rw [ofRows, offsets_getLast?, Nat.zero_add, List.length_map, total]
  colIndices_length := by simp [ofRows]
  numRows_eq := by simp
  payloads_length := by simp
  rowEntries_sorted := by
    intro i hi
    rw [List.length_map] at hi
    have hrow := h rows[i] (List.getElem_mem hi)
    exact ⟨rows[i].entries, rowEntries_ofRows hi, hrow.columns_lt, hrow.entries_ok⟩
  getVal_eq := by
    intro i j
    have hi : i.val < rows.length := by simpa using i.isLt
    refine ⟨rows[i.val].coeff j, getVal_ofRows hi j, ?_⟩
    simp [SparseRow.dense]
  getPayload_eq := by
    intro i
    have hi : i.val < rows.length := by simpa using i.isLt
    refine ⟨rows[i.val].payload, getPayload_ofRows hi, ?_, (h _ (List.getElem_mem hi)).payload_length⟩
    simp [SparseRow.dense]

/-! ## Operations -/

private theorem forall_mem_set {P : SparseRow → Prop} {i : ℕ} {r : SparseRow} (h : ∀ q ∈ rows, P q) (hr : P r) :
    ∀ q ∈ rows.set i r, P q := by
  intro q hq
  rcases List.mem_or_eq_of_mem_set hq with hq | rfl
  · exact h q hq
  · exact hr

private theorem apply_ofRows (h : ∀ r ∈ rows, SortedRow c w r) {op : RowOp} (hallowed : op.Allowed c w)
    (hon : op.OnRows rows.length) : ∃ rows', (ofRows c rows).apply ⟨.scalar, B⟩ op = .ok (ofRows c rows') ∧
      (∀ r ∈ rows', SortedRow c w r) ∧ rows'.map (SparseRow.dense c w) =
        applyDense (rows.map (SparseRow.dense c w)) op ∧
      rows'.length = op.rowsAfter rows.length := by
  cases op with
  | append row payload =>
      refine ⟨_, congrArg Except.ok (appendRow_ofRows row payload), ?_, ?_, by simp [RowOp.rowsAfter]⟩
      · intro r hr
        rcases List.mem_append.mp hr with hr | hr
        · exact h r hr
        · rw [List.mem_singleton.mp hr]
          exact sortedRow_nonzeroEntries hallowed.1 hallowed.2
      · rw [List.map_append, List.map_singleton, dense_nonzeroEntries]
        rfl
  | swap r1 r2 =>
      obtain ⟨h1, h2⟩ := hon
      refine ⟨_, swapRows_ofRows h1 h2, ?_, ?_, by simp [RowOp.rowsAfter]⟩
      · exact forall_mem_set (forall_mem_set h (h _ (List.getElem_mem h2))) (h _ (List.getElem_mem h1))
      · simp [applyDense, List.map_set, h1, h2]
  | scale row factor =>
      have hlt : row < rows.length := hon
      have hrow := h _ (List.getElem_mem hlt)
      refine ⟨_, scaleRow_ofRows _ hlt factor, forall_mem_set h (hrow.scale hallowed), ?_, by simp [RowOp.rowsAfter]⟩
      rw [List.map_set, hrow.dense_scale]
      simp [applyDense, hlt]
  | addScaled targetRow sourceRow factor =>
      obtain ⟨ht, hs⟩ := hon
      have htarget := h _ (List.getElem_mem ht)
      have hsource := h _ (List.getElem_mem hs)
      refine ⟨_, addScaledRow_ofRows _ ht hs htarget.wellFormed hsource.wellFormed factor,
        forall_mem_set h (htarget.addScaled factor), ?_, by simp [RowOp.rowsAfter]⟩
      rw [List.map_set, hsource.dense_addScaled htarget]
      simp [applyDense, ht, hs]

private theorem lt_of_readPtr {i p : ℕ} (h : readAt (ofRows c rows).rowPtr (i + 1) = .ok p) : i < rows.length := by
  obtain ⟨hlt, -⟩ := List.getElem?_eq_some_iff.mp (readAt_eq_ok.mp h)
  rw [ofRows, offsets_length] at hlt
  omega

private theorem lt_of_rowEntries {i : ℕ} {entries : List (ℕ × UInt8)} (h : (ofRows c rows).rowEntries i = .ok entries) :
    i < rows.length := by
  rw [rowEntries, bind_eq_ok] at h
  obtain ⟨start, -, h⟩ := h
  rw [bind_eq_ok] at h
  obtain ⟨stop, hstop, -⟩ := h
  exact lt_of_readPtr hstop

/-- An operation is performed on existing rows only, apart from the exchange of a row with itself, which looks
at no row. -/
private theorem onRows_of_apply {env : Platform} {m : CsrMatrix} {op : RowOp}
    (h : (ofRows c rows).apply env op = .ok m) :
    op.OnRows rows.length ∨ ∃ row, op = .swap row row ∧ m = ofRows c rows := by
  cases op with
  | append row payload => exact .inl trivial
  | swap r1 r2 =>
      rw [apply, swapRows] at h
      split at h
      · rename_i heq
        exact .inr ⟨r1, by rw [heq], (Except.ok.inj h).symm⟩
      · rw [bind_eq_ok] at h
        obtain ⟨row1, h1, h⟩ := h
        rw [bind_eq_ok] at h
        obtain ⟨row2, h2, -⟩ := h
        exact .inl ⟨lt_of_rowEntries h1, lt_of_rowEntries h2⟩
  | scale row factor =>
      rw [apply, scaleRow, bind_eq_ok] at h
      obtain ⟨start, -, h⟩ := h
      rw [bind_eq_ok] at h
      obtain ⟨stop, hstop, -⟩ := h
      exact .inl (lt_of_readPtr hstop)
  | addScaled targetRow sourceRow factor =>
      rw [apply, addScaledRow, bind_eq_ok] at h
      obtain ⟨target, ht, h⟩ := h
      rw [bind_eq_ok] at h
      obtain ⟨dense, -, h⟩ := h
      rw [bind_eq_ok] at h
      obtain ⟨source, hs, -⟩ := h
      exact .inl ⟨lt_of_rowEntries ht, lt_of_rowEntries hs⟩

private theorem applyDense_swap_self (D : List (DenseRow c w)) (row : ℕ) : applyDense D (.swap row row) = D := by
  rw [applyDense]
  cases hrow : D[row]? with
  | none => rfl
  | some a =>
      obtain ⟨hlt, rfl⟩ := List.getElem?_eq_some_iff.mp hrow
      simp

private theorem apply_completed (h : ∀ r ∈ rows, SortedRow c w r) {op : RowOp} (hallowed : op.Allowed c w)
    {m : CsrMatrix} (hrun : (ofRows c rows).apply ⟨.scalar, B⟩ op = .ok m) : ∃ rows', m = ofRows c rows' ∧
      (∀ r ∈ rows', SortedRow c w r) ∧
      rows'.map (SparseRow.dense c w) = applyDense (rows.map (SparseRow.dense c w)) op := by
  rcases onRows_of_apply hrun with hon | ⟨row, rfl, rfl⟩
  · obtain ⟨rows', hok, hsorted, hdense, -⟩ := apply_ofRows (B := B) h hallowed hon
    rw [hok, Except.ok.injEq] at hrun
    exact ⟨rows', hrun.symm, hsorted, hdense⟩
  · exact ⟨rows, rfl, h, (applyDense_swap_self _ row).symm⟩

/-! ## Sequences of operations -/

private theorem foldlM_apply_completed {ops : List RowOp} (hops : ∀ op ∈ ops, op.Allowed c w) {m : CsrMatrix}
    (h : ∀ r ∈ rows, SortedRow c w r) (hrun : ops.foldlM (apply ⟨.scalar, B⟩) (ofRows c rows) = .ok m) :
    m.Refines (ops.foldl applyDense (rows.map (SparseRow.dense c w))) := by
  induction ops generalizing rows with
  | nil =>
      cases hrun
      exact refines_ofRows h
  | cons op ops ih =>
      rw [List.foldlM_cons, bind_eq_ok] at hrun
      obtain ⟨m', hfirst, hrest⟩ := hrun
      obtain ⟨rows', rfl, hsorted, hdense⟩ := apply_completed h (hops op (by simp)) hfirst
      rw [List.foldl_cons, ← hdense]
      exact ih (fun o ho => hops o (by simp [ho])) hsorted hrest

private theorem foldlM_apply_ok {ops : List RowOp} (hops : ∀ op ∈ ops, op.Allowed c w)
    (h : ∀ r ∈ rows, SortedRow c w r) (hon : AllOnRows rows.length ops) :
    ∃ m, ops.foldlM (apply ⟨.scalar, B⟩) (ofRows c rows) = .ok m := by
  induction ops generalizing rows with
  | nil => exact ⟨_, rfl⟩
  | cons op ops ih =>
      obtain ⟨rows', hok, hsorted, -, hlen⟩ := apply_ofRows (B := B) h (hops op (by simp)) hon.1
      obtain ⟨m, hm⟩ := ih (fun o ho => hops o (by simp [ho])) hsorted (hlen ▸ hon.2)
      exact ⟨m, by rw [List.foldlM_cons, hok, ok_bind, hm]⟩

/-- A sequence of operations on existing rows is performed, and every matrix that a sequence builds is the
dense matrix that the same operations build. -/
theorem build_refines {c w B : ℕ} {ops : List RowOp} (hops : ∀ op ∈ ops, op.Allowed c w) :
    (AllOnRows 0 ops → ∃ m, build ⟨.scalar, B⟩ c ops = .ok m) ∧
      ∀ m, build ⟨.scalar, B⟩ c ops = .ok m → m.Refines (buildDense c w ops) := by
  have hnone : ∀ r ∈ ([] : List SparseRow), SortedRow c w r := by simp
  exact ⟨fun hon => foldlM_apply_ok hops hnone hon, fun m hrun => foldlM_apply_completed hops hnone hrun⟩

def exchangeOps : List RowOp :=
  [.append [0, 3] (some [1]), .append [0, 0] none, .append [2, 9] (some [5]), .swap 0 2, .scale 0 2, .addScaled 2 0 7]

theorem build_refines_exchange : ∃ m, build ⟨.scalar, 4⟩ 2 exchangeOps = .ok m ∧
    m.Refines (buildDense 2 1 exchangeOps) := by
  have hallowed : ∀ op ∈ exchangeOps, op.Allowed 2 1 := by simp [exchangeOps, RowOp.Allowed]
  have hrows : AllOnRows 0 exchangeOps := by simp [exchangeOps, AllOnRows, RowOp.OnRows, RowOp.rowsAfter]
  obtain ⟨hdone, hdense⟩ := build_refines (B := 4) hallowed
  obtain ⟨m, hm⟩ := hdone hrows
  exact ⟨m, hm, hdense m hm⟩

end CsrMatrix

end QuicFuscate.Fec
