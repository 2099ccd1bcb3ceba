import QuicFuscate.Fec.Proofs.Decoder

/-!
# Elimination solves what can be solved

A decoder with `k` rows of `k` coefficients, all of them with a payload, holds a square system.  The
coefficient side decides alone whether elimination ends with full rank, which is whether the matrix
has an inverse; the payloads are then the rows of the solution.
-/

namespace QuicFuscate.Fec

open Framework CsrMatrix GF256

structure SquareRows (k width : ℕ) (rows : List SparseRow) : Prop where
  length_eq : rows.length = k
  wellFormed : ∀ row ∈ rows, row.WellFormed k
  payload : ∀ row ∈ rows, ∃ p, row.payload = some p ∧ p.length = width

def rowMatrix (k : ℕ) (rows : List SparseRow) : Matrix (Fin k) (Fin k) GF256 :=
  fun r c => mk ((rows.getD r ⟨[], none⟩).coeff c)

def rowPayloads (k width : ℕ) (rows : List SparseRow) : Matrix (Fin k) (Fin width) GF256 :=
  fun r => blockVec width ((rows.getD r ⟨[], none⟩).payload.getD [])

noncomputable def rowSolution (k width : ℕ) (rows : List SparseRow) : Matrix (Fin k) (Fin width) GF256 :=
  (rowMatrix k rows)⁻¹ * rowPayloads k width rows

variable {k width B : ℕ} {rows : List SparseRow}

namespace SquareRows

theorem rowOk (h : SquareRows k width rows) : ∀ row ∈ rows, RowOk k width row := by
  intro row hrow
  refine ⟨h.wellFormed row hrow, ?_⟩
  intro p hp
  obtain ⟨q, hq, hlen⟩ := h.payload row hrow
  rw [hp, Option.some.injEq] at hq
  rwa [hq]

theorem getD_mem (h : SquareRows k width rows) (t : Fin k) : rows.getD t ⟨[], none⟩ ∈ rows := by
  rw [List.getD_eq_getElem _ _ (by rw [h.length_eq]; exact t.isLt)]
  exact List.getElem_mem _

private theorem payload_systemOf (h : SquareRows k width rows) (t : Fin k) :
    (systemOf k width rows).payload t = some (rowPayloads k width rows t) := by
  obtain ⟨p, hp, -⟩ := h.payload _ (h.getD_mem t)
  change (rows.getD t ⟨[], none⟩).payload.map _ = _
  rw [rowPayloads, hp]
  rfl

theorem solves (h : SquareRows k width rows) (hA : IsUnit (rowMatrix k rows).det) :
    Solves (systemOf k width rows).coeff (systemOf k width rows).values (rowSolution k width rows) := by
  intro r
  have hmul : rowMatrix k rows * rowSolution k width rows = rowPayloads k width rows := by
    rw [rowSolution, ← Matrix.mul_assoc, Matrix.mul_nonsing_inv _ hA, Matrix.one_mul]
  rw [LinearSystem.values, h.payload_systemOf, Option.getD_some, ← hmul]
  funext j
  rw [Finset.sum_apply, Matrix.mul_apply]
  rfl

end SquareRows

private theorem eliminateColumns_blockSize (policy : SimdPolicy) (B B' k count i rank : ℕ) (m : CsrMatrix) :
    eliminateColumns ⟨policy, B⟩ k count i rank m = eliminateColumns ⟨policy, B'⟩ k count i rank m := by
  induction count generalizing i rank m with
  | zero => rfl
  | succ count ih =>
      rw [eliminateColumns, eliminateColumns]
      refine congrArg (eliminateColumn ⟨policy, B'⟩ m i >>= ·) (funext fun r => ?_)
      cases r with
      | none => exact ih _ _ _
      | some m =>
          dsimp only
          split
          · rfl
          · exact ih _ _ _

theorem SquareRows.eliminateColumns (h : SquareRows k width rows) (B : ℕ) :
    (IsUnit (rowMatrix k rows).det ∧
      ∃ g, eliminateColumns ⟨.scalar, B⟩ k k 0 0 (ofRows k rows) = .ok (k, ofFn k g) ∧
        ∀ t : Fin k, ∃ data, (g t).payload = some data ∧ data.length = width ∧
          ∀ j, blockVec width data j = rowSolution k width rows t j) ∨
    (¬ IsUnit (rowMatrix k rows).det ∧
      ∃ rank m, eliminateColumns ⟨.scalar, B⟩ k k 0 0 (ofRows k rows) = .ok (rank, m) ∧ rank < k) := by
  have hindependent : LinearIndependent GF256 (systemOf k width rows).coeff ↔ IsUnit (rowMatrix k rows).det := by
    rw [← Matrix.isUnit_iff_isUnit_det]
    exact Matrix.linearIndependent_rows_iff_isUnit
  rw [ofRows_eq_ofFn h.length_eq, eliminateColumns_blockSize .scalar B width]
  rcases eliminateColumns_reaches le_rfl (Nat.zero_add k) (represents_systemOf width h.length_eq h.rowOk) .start with
    ⟨g, t, hrun, hg, hreach⟩ | ⟨rank, g, hrun, hrank, -, hstuck⟩
  · have hA := hindependent.mp hreach.linearIndependent
    refine .inl ⟨hA, g, hrun, ?_⟩
    intro r
    have hall : ∀ r, ((systemOf k width rows).payload r).isSome := fun r => by rw [h.payload_systemOf]; rfl
    have hpayload := hreach.payload_eq_of_complete hall (h.solves hA) r
    rw [← hg.payload r, Option.map_eq_some_iff] at hpayload
    obtain ⟨data, hdata, hvec⟩ := hpayload
    exact ⟨data, hdata, (hg.rowOk r r.isLt).payload_length data hdata, congrFun hvec⟩
  · exact .inr ⟨fun hA => hstuck.not_linearIndependent (hindependent.mpr hA), rank, _, hrun, hrank⟩

theorem SquareRows.gaussianElimination (h : SquareRows k width rows) {d : Decoder} (hd : d.k = k)
    (hm : d.decodingMatrix = ofRows k rows) (hslots : d.systematicPackets.length = k) (hB : width ≤ B) :
    (IsUnit (rowMatrix k rows).det ∧ ∃ data : ℕ → List UInt8,
      (∀ t : Fin k, (data t).length = width ∧ ∀ j, blockVec width (data t) j = rowSolution k width rows t j) ∧
      ∃ m, d.gaussianElimination ⟨.scalar, B⟩ = .ok (true,
        { d with
          decodingMatrix := m
          systematicPackets := d.systematicPackets.mapIdx fun i slot =>
            slot.or (some (paddedFrom ⟨.scalar, B⟩ i (data i)))
          isDecoded := true })) ∨
    (¬ IsUnit (rowMatrix k rows).det ∧
      ∃ m, d.gaussianElimination ⟨.scalar, B⟩ = .ok (false, { d with decodingMatrix := m })) := by
  rcases h.eliminateColumns B with ⟨hA, g, hrun, hg⟩ | ⟨hA, rank, m, hrun, hrank⟩
  · choose data hdata hlen hvec using hg
    have hpayload : ∀ t, (ht : t < k) → (g t).payload = some (data ⟨t, ht⟩) := fun t ht => hdata ⟨t, ht⟩
    have hrec := reconstruct_padded ⟨.scalar, B⟩ hslots fun t ht p hp => by
      rw [hpayload t ht, Option.some.injEq] at hp
      rw [← hp, hlen]
      exact hB
    refine .inl ⟨hA, fun t => ((g t).payload).getD [], fun t => ?_, ofFn k g, ?_⟩
    · dsimp only
      rw [hdata t, Option.getD_some]
      exact ⟨hlen t, hvec t⟩
    rw [Decoder.gaussianElimination, hd, hm, hrun, ok_bind]
    simp only [lt_irrefl, if_false]
    rw [hrec, ok_bind]
    congr 3
    apply List.ext_getElem (by simp)
    intro i h1 h2
    have hi : i < k := by simpa [hslots] using h1
    simp [hi, hpayload i hi]
  · refine .inr ⟨hA, m, ?_⟩
    rw [Decoder.gaussianElimination, hd, hm, hrun, ok_bind]
    simp only [if_pos hrank]
    rfl

def SlotSolved (width : ℕ) (slot slot' : Option Packet) (x : Fin width → GF256) : Prop :=
  match slot with
  | some p => slot' = some p
  | none => ∃ p block, slot' = some p ∧ p.data = some block ∧ p.len = width ∧ ∀ j, blockVec width block j = x j

private theorem slotSolved_paddedFrom {data : List UInt8} {x : Fin width → GF256} (hlen : data.length = width)
    (hvec : ∀ j, blockVec width data j = x j) (env : Platform) (i : ℕ) (slot : Option Packet) :
    SlotSolved width slot (slot.or (some (paddedFrom env i data))) x := by
  cases slot with
  | some p => rfl
  | none =>
      refine ⟨_, _, rfl, rfl, hlen, fun j => ?_⟩
      have hj : j.val < data.length := hlen.symm ▸ j.isLt
      rw [← hvec j, blockVec, blockVec, List.getD_append _ _ _ _ hj]

/-- Elimination completes on every square system.  It reports success, and marks the decoder as
done, exactly when the coefficients are nonsingular; then every empty slot holds its row of the
solution, and otherwise the slots are as before. -/
theorem gaussianElimination_decodes_iff {d : Decoder} (h : SquareRows d.k width rows)
    (hm : d.decodingMatrix = ofRows d.k rows) (hslots : d.systematicPackets.length = d.k) (hB : width ≤ B) :
    ∃ solved d', d.gaussianElimination ⟨.scalar, B⟩ = .ok (solved, d') ∧
      ((solved = true ∧ d'.isDecoded = true) ↔ (rowMatrix d.k rows).det ≠ 0) ∧
      ((rowMatrix d.k rows).det ≠ 0 → ∀ i : Fin d.k, SlotSolved width (d.systematicPackets.getD i none)
        (d'.systematicPackets.getD i none) (rowSolution d.k width rows i)) ∧
      ((rowMatrix d.k rows).det = 0 →
        d'.systematicPackets = d.systematicPackets ∧ d'.isDecoded = d.isDecoded) := by
  rcases h.gaussianElimination rfl hm hslots hB with ⟨hA, data, hdata, m, hrun⟩ | ⟨hA, m, hrun⟩
  · have hdet := isUnit_iff_ne_zero.mp hA
    refine ⟨true, _, hrun, ⟨fun _ => hdet, fun _ => ⟨rfl, rfl⟩⟩, fun _ i => ?_, fun hzero => absurd hzero hdet⟩
    have hi : i.val < d.systematicPackets.length := hslots.symm ▸ i.isLt
    have hslot := slotSolved_paddedFrom (hdata i).1 (hdata i).2 ⟨.scalar, B⟩ i (d.systematicPackets.getD i none)
    simpa [hi] using hslot
  · have hdet : (rowMatrix d.k rows).det = 0 := by
      by_contra hne
      exact hA (isUnit_iff_ne_zero.mpr hne)
    exact ⟨false, _, hrun, ⟨fun hsolved => absurd hsolved.1 Bool.false_ne_true, fun hne => absurd hdet hne⟩,
      fun hne => absurd hdet hne, fun _ => ⟨rfl, rfl⟩⟩

def pairRows : List SparseRow := [⟨[(0, 1), (1, 1)], some [5]⟩, ⟨[(1, 1)], some [3]⟩]

def pairCollecting : Decoder :=
  { Decoder.new 2 with
    decodingMatrix := ofRows 2 pairRows
    systematicPackets := [none, some ⟨1, some [3], 1, true, none, 0⟩] }

theorem gaussianElimination_decodes_pair : SquareRows 2 1 pairRows ∧ (rowMatrix 2 pairRows).det ≠ 0 ∧
    ∃ d', pairCollecting.gaussianElimination ⟨.scalar, 1⟩ = .ok (true, d') ∧
      d'.systematicPackets = [some ⟨0, some [6], 1, true, none, 0⟩, some ⟨1, some [3], 1, true, none, 0⟩] ∧
      SlotSolved 1 none (some ⟨0, some [6], 1, true, none, 0⟩) (rowSolution 2 1 pairRows 0) := by
  have hrows : SquareRows 2 1 pairRows := by
    refine ⟨rfl, ?_, ?_⟩ <;> intro row hrow <;>
      simp only [pairRows, List.mem_cons, List.not_mem_nil, or_false] at hrow <;> rcases hrow with rfl | rfl
    · exact ⟨by decide, by decide⟩
    · exact ⟨by decide, by decide⟩
    · exact ⟨_, rfl, rfl⟩
    · exact ⟨_, rfl, rfl⟩
  obtain ⟨solved, d', hrun, hiff, hslots, -⟩ :=
    gaussianElimination_decodes_iff (d := pairCollecting) hrows rfl rfl (le_refl 1)
  have hsolved : (pairCollecting.gaussianElimination ⟨.scalar, 1⟩).toOption.any (fun r =>
      r.1 && r.2.isDecoded && r.2.systematicPackets ==
        [some ⟨0, some [6], 1, true, none, 0⟩, some ⟨1, some [3], 1, true, none, 0⟩]) = true := by
    decide +kernel
  rw [hrun] at hsolved
  simp only [Except.toOption, Option.any_some, Bool.and_eq_true, beq_iff_eq] at hsolved
  obtain ⟨⟨rfl, hdone⟩, hpackets⟩ := hsolved
  have hdet := hiff.mp ⟨rfl, hdone⟩
  have hslot := hslots hdet ⟨0, by decide⟩
  rw [hpackets] at hslot
  exact ⟨hrows, hdet, d', hrun, hpackets, hslot⟩

end QuicFuscate.Fec
