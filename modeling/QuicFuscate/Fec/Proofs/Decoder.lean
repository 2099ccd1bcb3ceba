import QuicFuscate.Fec.Proofs.Gaussian

/-!
# Runs of the decoder

A decoder first collects rows: a systematic packet for a filled slot is dropped, every other packet
adds its row.  With the `k`-th row it solves the system once, and from then on it ignores packets.
A run is therefore decided by the first `k` packets that are not dropped.
-/

namespace QuicFuscate.Fec

open Framework CsrMatrix

namespace Decoder

def feed (env : Platform) : Decoder → List Packet → Checked (List (Except String Bool) × Decoder) :=
  runAll (addPacket env)

end Decoder

def packetRow (k : ℕ) (p : Packet) : SparseRow :=
  if p.isSystematic then ⟨nonzeroEntries ((List.replicate k 0).set (p.id % k) 1), none⟩
  else ⟨nonzeroEntries ((p.coefficients.getD []).take p.coeffLen), p.data⟩

/-- A packet whose coefficient vector, if it is a repair packet, has `k` symbols and whose payload
fills a pool block. -/
structure PacketOk (k blockSize : ℕ) (p : Packet) : Prop where
  coeffs : p.isSystematic = false → ∃ c, p.coefficients = some c ∧ p.coeffLen ≤ c.length
  coeffLen_eq : p.isSystematic = false → p.coeffLen = k
  data_length : p.isSystematic = false → ∀ d, p.data = some d → d.length = blockSize

def slotsAfter (k : ℕ) (slots : List (Option Packet)) (p : Packet) : List (Option Packet) :=
  if p.isSystematic then slots.set (p.id % k) (some p) else slots

/-- A systematic packet for a slot that is already filled. -/
def Repeated (k : ℕ) (slots : List (Option Packet)) (p : Packet) : Prop :=
  p.isSystematic ∧ (slots.getD (p.id % k) none).isSome

instance (k : ℕ) (slots : List (Option Packet)) (p : Packet) : Decidable (Repeated k slots p) :=
  inferInstanceAs (Decidable (_ ∧ _))

/-- A decoder that has collected `rows`. -/
def collecting (k : ℕ) (slots : List (Option Packet)) (rows : List SparseRow) : Decoder where
  k := k
  decodingMatrix := ofRows k rows
  systematicPackets := slots
  isDecoded := false
  strategy := (Decoder.new k).strategy

variable {env : Platform} {k : ℕ} {slots : List (Option Packet)} {rows : List SparseRow}
  {p : Packet}

theorem new_eq_collecting (k : ℕ) :
    Decoder.new k = collecting k (List.replicate k none) [] := rfl

theorem slotsAfter_length (k : ℕ) (slots : List (Option Packet)) (p : Packet) :
    (slotsAfter k slots p).length = slots.length := by
  unfold slotsAfter
  split <;> simp

theorem rowOk_packetRow {B : ℕ} (h : PacketOk k B p) : RowOk k B (packetRow k p) := by
  unfold packetRow
  cases hsys : p.isSystematic with
  | true => exact ⟨SparseRow.wellFormed_nonzeroEntries (by simp) _, by simp⟩
  | false =>
      refine ⟨SparseRow.wellFormed_nonzeroEntries ?_ _, h.data_length hsys⟩
      rw [List.length_take, h.coeffLen_eq hsys]
      exact min_le_left _ _

/-! ## Collecting -/

theorem tryDecode_collecting (hrows : rows.length < k) :
    (collecting k slots rows).tryDecode env = .ok (false, collecting k slots rows) := by
  rw [Decoder.tryDecode]
  simp [collecting, hrows]

theorem addPacket_collecting (env : Platform) (hrows : rows.length < k) (hslots : slots.length = k)
    (hcoeffs : p.isSystematic = false → ∃ c, p.coefficients = some c ∧ p.coeffLen ≤ c.length) :
    (collecting k slots rows).addPacket env p =
      if Repeated k slots p then .ok (.ok false, collecting k slots rows)
      else (collecting k (slotsAfter k slots p) (rows ++ [packetRow k p])).tryDecode env >>=
        fun r => .ok (.ok r.1, r.2) := by
  have hopen : ¬ ((collecting k slots rows).isDecoded = true ∨
      (collecting k slots rows).decodingMatrix.numRows ≥ (collecting k slots rows).k) := by
    simp [collecting, hrows]
  rw [Decoder.addPacket, if_neg hopen]
  cases hsys : p.isSystematic with
  | false =>
      obtain ⟨c, hc, hle⟩ := hcoeffs hsys
      have hslice : sliceOf c 0 p.coeffLen = .ok (c.take p.coeffLen) :=
        sliceOf_of_le (Nat.zero_le p.coeffLen) hle
      simp only [hc, hslice, Repeated, hsys, Bool.false_eq_true, if_false, false_and, ok_bind,
        Decoder.addRow, slotsAfter, packetRow, Option.getD_some]
      rw [show (collecting k slots rows).decodingMatrix = ofRows k rows from rfl, appendRow_ofRows]
      rfl
  | true =>
      have hidx : p.id % k < k := Nat.mod_lt _ (by omega)
      have hread : readAt slots (p.id % k) = .ok (slots.getD (p.id % k) none) :=
        readAt_getD (by omega) none
      have hunit : writeAt (List.replicate k (0 : UInt8)) (p.id % k) 1 =
          .ok ((List.replicate k 0).set (p.id % k) 1) := writeAt_of_lt (by simpa using hidx) 1
      simp only [if_true, collecting, hunit, ok_bind, hread]
      cases hslot : slots.getD (p.id % k) none with
      | some q =>
          have hrep : Repeated k slots p := ⟨hsys, by rw [hslot]; rfl⟩
          rw [if_pos hrep]
          rfl
      | none =>
          have hrep : ¬ Repeated k slots p := by
            rintro ⟨-, h⟩
            rw [hslot] at h
            simp at h
          have hwrite : writeAt slots (p.id % k) (some p) = .ok (slots.set (p.id % k) (some p)) :=
            writeAt_of_lt (by omega) (some p)
          rw [if_neg hrep]
          simp only [hwrite, ok_bind, Decoder.addRow,
            appendRow_ofRows, slotsAfter, packetRow, hsys, if_true]
          rfl

private theorem feed_closed (env : Platform) {d : Decoder} (h : d.isDecoded ∨ d.decodingMatrix.numRows ≥ d.k)
    (ps : List Packet) :
    d.feed env ps = .ok (List.replicate ps.length (.ok d.isDecoded), d) := by
  induction ps with
  | nil => rfl
  | cons p ps ih =>
      refine runAll_cons ?_ ih
      rw [Decoder.addPacket, if_pos h]
      rfl

/-- The packets that are not dropped, in order. -/
def accepted (k : ℕ) : List (Option Packet) → List Packet → List Packet
  | _, [] => []
  | slots, p :: ps =>
      if Repeated k slots p then accepted k slots ps
      else p :: accepted k (slotsAfter k slots p) ps

def fillSlots (k : ℕ) (slots : List (Option Packet)) (ps : List Packet) : List (Option Packet) :=
  ps.foldl (slotsAfter k) slots

theorem fillSlots_length (k : ℕ) (slots : List (Option Packet)) (ps : List Packet) :
    (fillSlots k slots ps).length = slots.length := by
  induction ps generalizing slots with
  | nil => rfl
  | cons p ps ih => rw [fillSlots, List.foldl_cons]; exact (ih _).trans (slotsAfter_length k slots p)

theorem accepted_sublist (k : ℕ) (slots : List (Option Packet)) (ps : List Packet) :
    (accepted k slots ps).Sublist ps := by
  induction ps generalizing slots with
  | nil => exact .slnil
  | cons p ps ih =>
      rw [accepted]
      split
      · exact (ih slots).cons p
      · exact (ih _).cons_cons p

/-- The run in which the rows get complete: the packets up to the one that brings the `k`-th row
report nothing, and that one and all later ones report the outcome. -/
theorem feed_full (env : Platform) {ps : List Packet} (hps : ∀ p ∈ ps, PacketOk k env.blockSize p)
    (hslots : slots.length = k) (hrows : rows.length < k)
    (hacc : k ≤ rows.length + (accepted k slots ps).length) :
    ∃ pre p post, ps = pre ++ p :: post ∧
      accepted k slots pre ++ [p] = (accepted k slots ps).take (k - rows.length) ∧
      ∀ {b d}, (collecting k (fillSlots k slots ((accepted k slots ps).take (k - rows.length)))
          (rows ++ ((accepted k slots ps).take (k - rows.length)).map
            (packetRow k))).tryDecode env = .ok (b, d) →
        (d.isDecoded ∨ d.decodingMatrix.numRows ≥ d.k) → d.isDecoded = b →
        (collecting k slots rows).feed env ps =
          .ok (List.replicate pre.length (.ok false) ++ .ok b ::
            List.replicate post.length (.ok b), d) := by
  induction ps generalizing slots rows with
  | nil => simp [accepted] at hacc; omega
  | cons p ps ih =>
      have hp := hps p (by simp)
      have hps' : ∀ q ∈ ps, PacketOk k env.blockSize q := fun q hq => hps q (by simp [hq])
      have hadd := addPacket_collecting env (by omega : rows.length < k) hslots hp.coeffs
      by_cases hrep : Repeated k slots p
      · rw [if_pos hrep] at hadd
        rw [accepted, if_pos hrep] at hacc ⊢
        obtain ⟨pre, q, post, rfl, hfirst, hrun⟩ := ih hps' hslots hrows hacc
        refine ⟨p :: pre, q, post, rfl, by rw [accepted, if_pos hrep, hfirst], ?_⟩
        intro b d htry hclosed hdec
        exact runAll_cons hadd (hrun htry hclosed hdec)
      · rw [if_neg hrep] at hadd
        rw [accepted, if_neg hrep, List.length_cons] at hacc
        rw [accepted, if_neg hrep]
        by_cases hlast : rows.length + 1 = k
        · have hone : k - rows.length = 1 := by omega
          refine ⟨[], p, ps, rfl, by simp [accepted, hone], ?_⟩
          intro b d htry hclosed hdec
          rw [hone, List.take_succ_cons, List.take_zero] at htry
          rw [show fillSlots k slots [p] = slotsAfter k slots p from rfl,
            List.map_singleton] at htry
          rw [htry, ok_bind] at hadd
          have hrest := feed_closed env hclosed ps
          rw [hdec] at hrest
          exact runAll_cons hadd hrest
        · rw [tryDecode_collecting (by simp; omega), ok_bind] at hadd
          have hlen : (rows ++ [packetRow k p]).length = rows.length + 1 := by simp
          have hmore : k - rows.length = (k - (rows ++ [packetRow k p]).length) + 1 := by omega
          obtain ⟨pre, q, post, rfl, hfirst, hrun⟩ := ih hps'
            ((slotsAfter_length k slots p).trans hslots)
            (by omega : (rows ++ [packetRow k p]).length < k) (by omega)
          refine ⟨p :: pre, q, post, rfl, ?_, ?_⟩
          · rw [accepted, if_neg hrep, hmore, List.take_succ_cons, List.cons_append, hfirst]
          · intro b d htry hclosed hdec
            rw [hmore, List.take_succ_cons, List.map_cons] at htry
            refine runAll_cons hadd (hrun ?_ hclosed hdec)
            rw [List.append_assoc]
            exact htry

/-! ## Solving by elimination -/

/-- The system that `k` collected rows describe on the first `width` payload bytes. -/
def systemOf (k width : ℕ) (rows : List SparseRow) :
    LinearSystem k GF256 (Fin width → GF256) where
  coeff t c := ⟨(rows.getD t ⟨[], none⟩).coeff c⟩
  payload t := (rows.getD t ⟨[], none⟩).payload.map (blockVec width)
  origin := 1

theorem rowOk_getD {B : ℕ} (hrows : rows.length = k) (hok : ∀ r ∈ rows, RowOk k B r) :
    ∀ t < k, RowOk k B (rows.getD t ⟨[], none⟩) := by
  intro t ht
  rw [List.getD_eq_getElem _ _ (by omega)]
  exact hok _ (List.getElem_mem _)

theorem represents_systemOf {B : ℕ} (w : ℕ) (hrows : rows.length = k)
    (hok : ∀ r ∈ rows, RowOk k B r) :
    Represents B (fun t => rows.getD t ⟨[], none⟩) (systemOf k w rows) where
  rowOk := rowOk_getD hrows hok
  coeff _ _ := rfl
  payload _ := rfl

def solvedFrom (i : ℕ) (data : List UInt8) : Packet := ⟨i, some data, data.length, true, none, 0⟩

def filledFrom (k : ℕ) (slots : List (Option Packet)) (g : ℕ → SparseRow) :
    List (Option Packet) :=
  slots.mapIdx fun i slot => if i < k then slot.or ((g i).payload.map (solvedFrom i)) else slot

def paddedFrom (env : Platform) (i : ℕ) (data : List UInt8) : Packet :=
  ⟨i, some (data ++ env.alloc.drop data.length), data.length, true, none, 0⟩

private theorem paddedFrom_of_full {i : ℕ} {data : List UInt8} (h : data.length = env.blockSize) :
    paddedFrom env i data = solvedFrom i data := by
  rw [paddedFrom, List.drop_of_length_le (by rw [Platform.alloc_length, h]), List.append_nil, solvedFrom]

theorem reconstruct_padded (env : Platform) {g : ℕ → SparseRow} (hslots : slots.length = k)
    (hlen : ∀ t < k, ∀ p, (g t).payload = some p → p.length ≤ env.blockSize) :
    Decoder.reconstruct env (ofFn k g) k slots =
      .ok (slots.mapIdx fun i slot => if i < k then slot.or ((g i).payload.map (paddedFrom env i)) else slot) := by
  rw [Decoder.reconstruct]
  refine loopTo_map (fun i slot => slot.or ((g i).payload.map (paddedFrom env i)))
    (fun i slot ys hi hys hx => ?_) hslots.ge
  have hset : ys.set i slot = ys := by
    obtain ⟨hlt, hget⟩ := List.getElem?_eq_some_iff.mp hx
    rw [← hget, List.set_getElem_self]
  rw [readAt_eq_ok.mpr hx, ok_bind]
  cases slot with
  | some q => simp [hset]
  | none =>
      simp only [getPayload_ofFn hi, ok_bind]
      cases hp : (g i).payload with
      | none => simp [hset]
      | some data =>
          have hcopy : copyFront env.alloc data = .ok (data ++ env.alloc.drop data.length) :=
            copyFront_of_le (by rw [Platform.alloc_length]; exact hlen i hi data hp)
          simp only [solvedPacket, hcopy, ok_bind, pure_eq_ok, writeAt_of_lt (by omega : i < ys.length)]
          rfl

theorem reconstruct_ofFn (env : Platform) {g : ℕ → SparseRow} (hslots : slots.length = k)
    (hok : ∀ t < k, RowOk k env.blockSize (g t)) :
    Decoder.reconstruct env (ofFn k g) k slots = .ok (filledFrom k slots g) := by
  rw [reconstruct_padded env hslots fun t ht p hp => ((hok t ht).payload_length p hp).le, filledFrom]
  refine congrArg Except.ok (List.ext_getElem (by simp) fun i h1 h2 => ?_)
  have hi : i < k := by simpa [hslots] using h1
  simp only [List.getElem_mapIdx, hi, if_true]
  congr 1
  cases hp : (g i).payload with
  | none => rfl
  | some data => simp [paddedFrom_of_full ((hok i hi).payload_length data hp)]

/-- With `k` rows the decoder eliminates: on independent rows it is done and the empty slots are
filled from the solved payloads, on dependent rows nothing is decoded. -/
theorem tryDecode_eliminates (slots : List (Option Packet)) {B w : ℕ} (hk : k ≤ 256) (hw : w ≤ B)
    (hrows : rows.length = k) (hslots : slots.length = k) (hok : ∀ r ∈ rows, RowOk k B r) :
    (∃ g t, Represents B g t ∧ (systemOf k w rows).Reaches k t ∧
        (collecting k slots rows).tryDecode ⟨.scalar, B⟩ = .ok (true,
          { collecting k (filledFrom k slots g) [] with
            decodingMatrix := ofFn k g, isDecoded := true })) ∨
      (∃ g, ¬ LinearIndependent GF256 (systemOf k w rows).coeff ∧
        (collecting k slots rows).tryDecode ⟨.scalar, B⟩ = .ok (false,
          { collecting k slots [] with decodingMatrix := ofFn k g })) := by
  have hfull : ¬ (collecting k slots rows).decodingMatrix.numRows < (collecting k slots rows).k := by
    simp [collecting, hrows]
  have hstrategy : (collecting k slots rows).strategy = .gaussianElimination := by
    simp [collecting, Decoder.new, hk]
  have htry : (collecting k slots rows).tryDecode ⟨.scalar, B⟩ =
      (collecting k slots rows).gaussianElimination ⟨.scalar, B⟩ := by
    rw [Decoder.tryDecode, if_neg (by simp [collecting]), if_neg hfull, hstrategy]
  have hmatrix : (collecting k slots rows).decodingMatrix =
      ofFn k fun t => rows.getD t ⟨[], none⟩ := ofRows_eq_ofFn hrows
  rw [htry, Decoder.gaussianElimination, hmatrix]
  rcases eliminateColumns_reaches (i := 0) hw (Nat.zero_add k)
      (represents_systemOf w hrows hok) .start
    with ⟨g, t, hrun, hg, hreach⟩ | ⟨rank, g, hrun, hrank, hg, hstuck⟩
  · left
    refine ⟨g, t, hg, hreach, ?_⟩
    rw [show (collecting k slots rows).k = k from rfl, hrun, ok_bind]
    simp only [lt_irrefl, if_false]
    rw [show (collecting k slots rows).systematicPackets = slots from rfl,
      reconstruct_ofFn ⟨.scalar, B⟩ hslots hg.rowOk]
    rfl
  · right
    refine ⟨g, hstuck.not_linearIndependent, ?_⟩
    rw [show (collecting k slots rows).k = k from rfl, hrun, ok_bind]
    simp only [hrank, if_true]
    rfl

end QuicFuscate.Fec
