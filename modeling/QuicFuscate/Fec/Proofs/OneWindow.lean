import QuicFuscate.Fec.Proofs.Decoder16
import QuicFuscate.Fec.Proofs.Delivery

/-!
# A decoder serves one window

A decoder returns packets at one call only, the one that completes its window; it is never emptied for the next one.
What an adaptive codec returns over a run is therefore bounded by the windows of the decoders it ever had: the
first one, and one for each loss report.
-/

namespace QuicFuscate.Fec

open Framework

/-! ## Rows and slots -/

namespace Decoder

variable {env : Platform} {d d' : Decoder}

private theorem appendRow_numRows_le (m : CsrMatrix) (row : List UInt8) (payload : Option (List UInt8)) :
    (m.appendRow row payload).numRows ≤ m.numRows + 1 := by
  simp only [CsrMatrix.numRows, CsrMatrix.appendRow, List.length_append, List.length_cons, List.length_nil]
  omega

private theorem reconstruct_length {m : CsrMatrix} {k : ℕ} {slots slots' : List (Option Packet)}
    (h : reconstruct env m k slots = .ok slots') : slots'.length = slots.length := by
  apply loopTo_keeps (fun u => u.length = slots.length) h rfl
  intro i u u' hu hstep
  rw [bind_eq_ok] at hstep
  obtain ⟨slot, -, hstep⟩ := hstep
  cases slot with
  | some p =>
      cases hstep
      exact hu
  | none =>
      dsimp only at hstep
      rw [bind_eq_ok] at hstep
      obtain ⟨payload, -, hstep⟩ := hstep
      cases payload with
      | none =>
          cases hstep
          exact hu
      | some data =>
          dsimp only at hstep
          rw [bind_eq_ok] at hstep
          obtain ⟨p, -, hwrite⟩ := hstep
          exact (writeAt_length hwrite).trans hu

private theorem tryDecode_answer {now : Bool} (hopen : d.isDecoded = false) (h : d.tryDecode env = .ok (now, d')) :
    d'.isDecoded = now ∧ d'.systematicPackets.length = d.systematicPackets.length ∧
      (now = true → d.k ≤ d.decodingMatrix.numRows) := by
  unfold tryDecode at h
  rw [hopen, if_neg Bool.false_ne_true] at h
  split at h
  · cases h
    exact ⟨hopen, rfl, fun hnow => absurd hnow Bool.false_ne_true⟩
  rename_i hrows
  have hfull : d.k ≤ d.decodingMatrix.numRows := Nat.le_of_not_lt hrows
  split at h
  · rw [gaussianElimination, bind_eq_ok] at h
    obtain ⟨⟨rank, m⟩, -, h⟩ := h
    dsimp only at h
    split at h
    · cases h
      exact ⟨hopen, rfl, fun hnow => absurd hnow Bool.false_ne_true⟩
    · rw [bind_eq_ok] at h
      obtain ⟨slots, hslots, h⟩ := h
      cases h
      exact ⟨rfl, reconstruct_length hslots, fun _ => hfull⟩
  · rw [wiedemannAlgorithm, bind_eq_ok] at h
    obtain ⟨solved, -, h⟩ := h
    split at h
    · cases h
      exact ⟨hopen, rfl, fun hnow => absurd hnow Bool.false_ne_true⟩
    · rw [bind_eq_ok] at h
      obtain ⟨slots, hslots, h⟩ := h
      cases h
      refine ⟨rfl, ?_, fun _ => hfull⟩
      apply loopTo_keeps (fun u : List (Option Packet) => u.length = d.systematicPackets.length) hslots rfl
      intro i u u' hu hstep
      rw [bind_eq_ok] at hstep
      obtain ⟨slot, -, hstep⟩ := hstep
      cases slot with
      | some p =>
          cases hstep
          exact hu
      | none =>
          simp only [bind_eq_ok] at hstep
          obtain ⟨bytes, -, p, -, hwrite⟩ := hstep
          exact (writeAt_length hwrite).trans hu

private theorem addRow_answer {row : List UInt8} {payload : Option (List UInt8)} {r : Except String Bool}
    (hopen : d.isDecoded = false) (h : d.addRow env row payload = .ok (r, d')) :
    r = .ok d'.isDecoded ∧ d'.systematicPackets.length = d.systematicPackets.length ∧
      (d'.isDecoded = true → d.k ≤ d.decodingMatrix.numRows + 1) := by
  rw [addRow, bind_eq_ok] at h
  obtain ⟨⟨now, next⟩, hdecode, h⟩ := h
  cases h
  obtain ⟨hflag, hslots, hfull⟩ := tryDecode_answer
    (d := { d with decodingMatrix := d.decodingMatrix.appendRow row payload }) hopen hdecode
  refine ⟨by rw [hflag], hslots, fun hnow => ?_⟩
  exact (hfull (hflag ▸ hnow)).trans (appendRow_numRows_le _ _ _)

private theorem addPacket_answer {pkt : Packet} {r : Except String Bool} (hopen : d.isDecoded = false)
    (h : d.addPacket env pkt = .ok (r, d')) :
    (r = .ok d'.isDecoded ∨ ∃ e, r = .error e ∧ d' = d) ∧
      d'.systematicPackets.length = d.systematicPackets.length ∧
      (d'.isDecoded = true → d.decodingMatrix.numRows < d.k ∧ d.k ≤ d.decodingMatrix.numRows + 1) := by
  have hclosed : d.isDecoded ≠ true := by rw [hopen]; exact Bool.false_ne_true
  unfold addPacket at h
  split at h
  · cases h
    exact ⟨.inl rfl, rfl, fun hnow => absurd hnow hclosed⟩
  rename_i hrows
  have hlt : d.decodingMatrix.numRows < d.k := Nat.lt_of_not_le fun hle => hrows (.inr hle)
  split at h
  · simp only [bind_eq_ok] at h
    obtain ⟨row, -, slot, -, h⟩ := h
    split at h
    · cases h
      exact ⟨.inl rfl, rfl, fun hnow => absurd hnow hclosed⟩
    · rw [bind_eq_ok] at h
      obtain ⟨slots, hwrite, h⟩ := h
      obtain ⟨hr, hslots, hfull⟩ := addRow_answer (d := { d with systematicPackets := slots }) hopen h
      exact ⟨.inl hr, hslots.trans (writeAt_length hwrite), fun hnow => ⟨hlt, hfull hnow⟩⟩
  · split at h
    · rw [bind_eq_ok] at h
      obtain ⟨row, -, h⟩ := h
      obtain ⟨hr, hslots, hfull⟩ := addRow_answer hopen h
      exact ⟨.inl hr, hslots, fun hnow => ⟨hlt, hfull hnow⟩⟩
    · cases h
      exact ⟨.inr ⟨_, rfl, rfl⟩, rfl, fun hnow => absurd hnow hclosed⟩

end Decoder

namespace Decoder16

variable {F : Gf16Arith} {k i r : ℕ} {s s' : Rows} {d d' : Decoder16}

private theorem subtractRow_rows {factor : UInt16} (h : subtractRow F k s i r factor = .ok s') :
    s'.1.length = s.1.length := by
  simp only [subtractRow, bind_eq_ok] at h
  obtain ⟨before, -, row, -, matrix, hmatrix, src, -, tgt, -, h⟩ := h
  split at h
  · simp only [bind_eq_ok] at h
    obtain ⟨q, -, payloads, -, h⟩ := h
    cases h
    exact writeAt_length hmatrix
  · cases h
    exact writeAt_length hmatrix

private theorem clearColumn_rows (h : clearColumn F k s i = .ok s') : s'.1.length = s.1.length := by
  apply loopTo_keeps (fun u : Rows => u.1.length = s.1.length) h rfl
  intro t u u' hu hstep
  rw [bind_eq_ok] at hstep
  obtain ⟨factor, -, hstep⟩ := hstep
  split at hstep
  · exact (subtractRow_rows hstep).trans hu
  · cases hstep
    exact hu

private theorem normalizeRow_rows (h : normalizeRow F s i = .ok s') : s'.1.length = s.1.length := by
  simp only [normalizeRow, bind_eq_ok] at h
  obtain ⟨pivot, -, inv, -, row, -, matrix, hmatrix, payload, -, h⟩ := h
  cases payload with
  | none =>
      cases h
      exact writeAt_length hmatrix
  | some p =>
      simp only [bind_eq_ok] at h
      obtain ⟨q, -, payloads, -, h⟩ := h
      cases h
      exact writeAt_length hmatrix

private theorem eliminateColumns_rows {count : ℕ} {solved : Bool}
    (h : eliminateColumns F k count i s = .ok (solved, s')) :
    s'.1.length = s.1.length := by
  induction count generalizing i s with
  | zero =>
      cases h
      rfl
  | succ count ih =>
      rw [eliminateColumns, bind_eq_ok] at h
      obtain ⟨next, hnext, h⟩ := h
      cases next with
      | none =>
          cases h
          rfl
      | some t =>
          rw [eliminateColumn, bind_eq_ok] at hnext
          obtain ⟨pivot, -, hnext⟩ := hnext
          cases pivot with
          | none => cases hnext
          | some pivot =>
              simp only [bind_eq_ok] at hnext
              obtain ⟨matrix, hswap, payloads, -, u, hnormal, v, hclear, hnext⟩ := hnext
              cases hnext
              calc s'.1.length
                _ = t.1.length := ih h
                _ = u.1.length := clearColumn_rows hclear
                _ = matrix.length := normalizeRow_rows hnormal
                _ = s.1.length := (swapAt_perm hswap).length_eq

private theorem tryDecode_answer {now : Bool} (hopen : d.isDecoded = false) (h : d.tryDecode F = .ok (now, d')) :
    d'.isDecoded = now ∧ d'.matrix.length = d.matrix.length ∧ (now = true → d.k ≤ d.matrix.length) := by
  rw [tryDecode] at h
  split at h
  · cases h
    exact ⟨hopen, rfl, fun hnow => absurd hnow Bool.false_ne_true⟩
  · rename_i hrows
    rw [bind_eq_ok] at h
    obtain ⟨⟨solved, t⟩, helim, h⟩ := h
    have hlength : t.1.length = d.matrix.length := eliminateColumns_rows helim
    dsimp only at h
    split at h
    · cases h
      exact ⟨rfl, hlength, fun _ => Nat.le_of_not_lt hrows⟩
    · cases h
      exact ⟨hopen, hlength, fun hnow => absurd hnow Bool.false_ne_true⟩

structure Sized (d : Decoder16) : Prop where
  payloads_length : d.payloads.length = d.matrix.length
  matrix_length : d.matrix.length ≤ d.k

private theorem addPacket_answer {pkt : Packet} {r : Except String Bool} (hopen : d.isDecoded = false)
    (hsized : d.Sized) (h : d.addPacket F pkt = .ok (r, d')) :
    (r = .ok d'.isDecoded ∨ ∃ e, r = .error e ∧ d' = d) ∧ d'.Sized ∧
      (d'.isDecoded = true → d.matrix.length < d.k ∧ d.k ≤ d.matrix.length + 1) := by
  have hk := addPacket_k h
  have hclosed : d.isDecoded ≠ true := by rw [hopen]; exact Bool.false_ne_true
  unfold addPacket at h
  split at h
  · cases h
    exact ⟨.inl rfl, hsized, fun hnow => absurd hnow hclosed⟩
  rename_i hrows
  have hlt : d.matrix.length < d.k := Nat.lt_of_not_le fun hle => hrows (.inr hle)
  split at h
  · rw [bind_eq_ok] at h
    obtain ⟨row, -, h⟩ := h
    cases h
    refine ⟨.inl (by rw [hopen]), ⟨?_, ?_⟩, fun hnow => absurd hnow hclosed⟩
    · simp [hsized.payloads_length]
    · simpa using hlt
  · split at h
    · simp only [bind_eq_ok] at h
      obtain ⟨row, -, ⟨now, next⟩, hdecode, h⟩ := h
      cases h
      obtain ⟨hflag, hmatrix, hfull⟩ := tryDecode_answer (d := { d with
        matrix := d.matrix ++ [row], payloads := d.payloads ++ [pkt.data] }) hopen hdecode
      have hpayloads := (tryDecode_lengths hdecode).length_eq
      simp only [payloadLengths, List.length_map, List.length_append, List.length_cons,
        List.length_nil] at hpayloads hmatrix hfull
      refine ⟨.inl (by rw [hflag]), ⟨?_, ?_⟩, fun hnow => ⟨hlt, hfull (hflag ▸ hnow)⟩⟩
      · rw [hpayloads, hmatrix, hsized.payloads_length]
      · rw [hmatrix, hk]
        omega
    · cases h
      exact ⟨.inr ⟨_, rfl, rfl⟩, hsized, fun hnow => absurd hnow hclosed⟩

end Decoder16

/-! ## One decoder -/

namespace DecoderVariant

variable {F : Gf16Arith} {env : Platform} {v v' : DecoderVariant} {pkt : Packet}

def rowCount : DecoderVariant → ℕ
  | .g8 d => d.decodingMatrix.numRows
  | .g16 d => d.matrix.length

def Sized : DecoderVariant → Prop
  | .g8 d => d.systematicPackets.length = d.k
  | .g16 d => d.Sized

theorem sized_new (mode : FecMode) (k : ℕ) : (new mode k).Sized := by
  unfold new
  split
  · exact ⟨rfl, Nat.zero_le _⟩
  · exact List.length_replicate

private theorem new_isDecoded (mode : FecMode) (k : ℕ) : (new mode k).isDecoded = false := by
  unfold new
  split <;> rfl

theorem new_rowCount (mode : FecMode) (k : ℕ) : (new mode k).rowCount = 0 := by
  unfold new
  split <;> rfl

theorem Sized.getDecodedPackets (h : v.Sized) :
    v.getDecodedPackets.1.length ≤ v.k ∧ v.getDecodedPackets.2.Sized ∧
      v.getDecodedPackets.2.isDecoded = v.isDecoded := by
  cases v with
  | g8 d =>
      have hslots : d.systematicPackets.length = d.k := h
      refine ⟨?_, ?_, rfl⟩
      · exact (List.length_filterMap_le _ _).trans hslots.le
      · simpa [DecoderVariant.getDecodedPackets, Decoder.getDecodedPackets, Sized] using hslots
  | g16 d =>
      have hsized : d.Sized := h
      refine ⟨?_, ⟨?_, hsized.matrix_length⟩, rfl⟩
      · refine (List.length_filterMap_le _ _).trans ?_
        rw [List.length_zipIdx, hsized.payloads_length]
        exact hsized.matrix_length
      · simpa [Decoder16.getDecodedPackets] using hsized.payloads_length

private theorem addPacket_answer {r : Except String Bool} (hopen : v.isDecoded = false) (hsized : v.Sized)
    (h : v.addPacket F env pkt = .ok (r, v')) :
    (r = .ok v'.isDecoded ∨ ∃ e, r = .error e ∧ v' = v) ∧ v'.Sized ∧
      (v'.isDecoded = true → v.rowCount < v.k ∧ v.k ≤ v.rowCount + 1) := by
  cases v with
  | g8 d =>
      rw [addPacket, bind_eq_ok] at h
      obtain ⟨⟨r', d'⟩, hadd, h⟩ := h
      cases h
      obtain ⟨hr, hslots, hfull⟩ := Decoder.addPacket_answer hopen hadd
      refine ⟨hr.imp id (Exists.imp fun e he => ⟨he.1, congrArg _ he.2⟩), ?_, hfull⟩
      exact hslots.trans (Eq.trans hsized (Decoder.addPacket_cases hadd).1.symm)
  | g16 d =>
      rw [addPacket, bind_eq_ok] at h
      obtain ⟨⟨r', d'⟩, hadd, h⟩ := h
      cases h
      obtain ⟨hr, hsized', hfull⟩ := Decoder16.addPacket_answer hopen hsized hadd
      exact ⟨hr.imp id (Exists.imp fun e he => ⟨he.1, congrArg _ he.2⟩), hsized', hfull⟩

private theorem closed_of_isDecoded (h : v.isDecoded = true) : v.Closed := by
  cases v <;> exact .inl h

end DecoderVariant

theorem receiveInto_answer {F : Gf16Arith} {env : Platform} {v v' : DecoderVariant} {pkt : Packet}
    {recovered : List Packet} {r : Except String (List Packet)} (hsized : v.Sized)
    (h : receiveInto F env v pkt recovered = .ok (r, v')) :
    v'.Sized ∧ ((v'.isDecoded = v.isDecoded ∧ ∀ out, r = .ok out → out = recovered) ∨
      (v.isDecoded = false ∧ v'.isDecoded = true ∧ v.rowCount < v.k ∧ v.k ≤ v.rowCount + 1 ∧
        ∃ batch, r = .ok (recovered ++ batch) ∧ batch.length ≤ v.k)) := by
  rw [receiveInto] at h
  cases hdecoded : v.isDecoded with
  | true =>
      rw [(DecoderVariant.closed_of_isDecoded hdecoded).addPacket, ok_bind, hdecoded] at h
      cases h
      exact ⟨hsized, .inl ⟨hdecoded, fun out hout => (Except.ok.inj hout).symm⟩⟩
  | false =>
      rw [hdecoded, bind_eq_ok] at h
      obtain ⟨⟨added, w⟩, hadd, h⟩ := h
      obtain ⟨hanswer, hsized', hfull⟩ := DecoderVariant.addPacket_answer hdecoded hsized hadd
      rcases hanswer with rfl | ⟨e, rfl, rfl⟩
      · dsimp only at h
        cases hnow : w.isDecoded with
        | true =>
            rw [hnow] at h
            cases h
            obtain ⟨hcount, hsized'', hflag⟩ := hsized'.getDecodedPackets
            obtain ⟨hlt, hle⟩ := hfull hnow
            rw [(DecoderVariant.addPacket_keeps hadd).1] at hcount
            exact ⟨hsized'', .inr ⟨rfl, hflag.trans hnow, hlt, hle, _, rfl, hcount⟩⟩
        | false =>
            rw [hnow] at h
            cases h
            exact ⟨hsized', .inl ⟨hnow, fun out hout => (Except.ok.inj hout).symm⟩⟩
      · cases h
        exact ⟨hsized', .inl ⟨hdecoded, fun out hout => by cases hout⟩⟩

/-! ## Runs -/

namespace AdaptiveFec

variable {F : Gf16Arith} {env : Platform} {fec fec' : AdaptiveFec}

def returns (F : Gf16Arith) (env : Platform) (fec : AdaptiveFec) : Call → Checked (List Packet × AdaptiveFec)
  | .send pkt queue => do
      let (_, fec) ← fec.onSend F env pkt queue
      return ([], fec)
  | .receive pkt => do
      let (result, fec) ← fec.onReceive F env pkt
      return (result.toOption.getD [], fec)
  | .reportLoss r => return ([], fec.reportLoss r)

def reportedWindows : ModeManager → List Call → List ℕ
  | _, [] => []
  | m, .reportLoss r :: calls => (m.update r).2.currentWindow :: reportedWindows (m.update r).2 calls
  | m, .send _ _ :: calls => reportedWindows m calls
  | m, .receive _ :: calls => reportedWindows m calls

/-- What a decoder may still give out, if a window of `k` packets is worth `ω k`. -/
def worth (ω : ℕ → ℕ) (v : DecoderVariant) : ℕ := if v.isDecoded then 0 else ω v.k

def outstanding (ω : ℕ → ℕ) (fec : AdaptiveFec) : ℕ :=
  worth ω fec.decoder + (fec.transitionDecoder.map (worth ω)).getD 0

/-- A measure of what a call returns that a window covers. -/
structure Covers (ω : ℕ → ℕ) (μ : List Packet → ℕ) : Prop where
  nil : μ [] = 0
  append : ∀ a b, μ (a ++ b) ≤ μ a + μ b
  batch : ∀ a k, a.length ≤ k → μ a ≤ ω k

structure AllSized (fec : AdaptiveFec) : Prop where
  decoder : fec.decoder.Sized
  transitionDecoder : ∀ v ∈ fec.transitionDecoder, v.Sized

variable {ω : ℕ → ℕ} {μ : List Packet → ℕ}

theorem Covers.receiveInto (hμ : Covers ω μ) {v v' : DecoderVariant} {pkt : Packet} {recovered : List Packet}
    {r : Except String (List Packet)} (hsized : v.Sized) (h : Fec.receiveInto F env v pkt recovered = .ok (r, v')) :
    v'.Sized ∧ ∀ out, r = .ok out → μ out + worth ω v' ≤ μ recovered + worth ω v := by
  obtain ⟨hsized', hcases⟩ := receiveInto_answer hsized h
  refine ⟨hsized', fun out hout => ?_⟩
  have hk := (receiveInto_keeps h).1
  rcases hcases with ⟨hflag, hsame⟩ | ⟨hopen, hdone, -, -, batch, rfl, hbatch⟩
  · rw [hsame out hout, worth, worth, hflag, hk]
  · cases hout
    have happend := hμ.append recovered batch
    have hworth := hμ.batch batch v.k hbatch
    rw [worth, worth, hopen, hdone]
    simp only [if_true, Bool.false_eq_true, if_false]
    omega

private theorem worth_keeps {v v' : DecoderVariant} {pkt : Packet} {recovered : List Packet}
    {r : Except String (List Packet)}
    (hsized : v.Sized) (h : Fec.receiveInto F env v pkt recovered = .ok (r, v')) : worth ω v' ≤ worth ω v := by
  obtain ⟨-, hcases⟩ := receiveInto_answer hsized h
  have hk := (receiveInto_keeps h).1
  rcases hcases with ⟨hflag, -⟩ | ⟨-, hdone, -⟩
  · rw [worth, worth, hflag, hk]
  · rw [worth, hdone, if_pos rfl]
    exact Nat.zero_le _

theorem AllSized.onReceive (hμ : Covers ω μ) (h : AllSized fec) {pkt : Packet} {result : Except String (List Packet)}
    (hrec : fec.onReceive F env pkt = .ok (result, fec')) :
    AllSized fec' ∧ μ (result.toOption.getD []) + outstanding ω fec' ≤ outstanding ω fec := by
  obtain ⟨first, decoder, hinto, hcases⟩ := onReceive_cases hrec
  obtain ⟨hsized, hmain⟩ := hμ.receiveInto h.decoder hinto
  rcases hcases with ⟨rfl, rfl⟩ | ⟨recovered, transDec, clonePkt, transDec', rfl, htrans, -, htransition, rfl⟩
  · refine ⟨⟨hsized, h.transitionDecoder⟩, ?_⟩
    simp only [outstanding]
    cases result with
    | error e =>
        have hworth := worth_keeps (ω := ω) h.decoder hinto
        simp only [Except.toOption, Option.getD_none, hμ.nil]
        omega
    | ok out =>
        have hused := hmain out rfl
        rw [hμ.nil] at hused
        simp only [Except.toOption, Option.getD_some]
        omega
  · obtain ⟨hsized', hsecond⟩ := hμ.receiveInto (h.transitionDecoder transDec htrans) htransition
    refine ⟨⟨hsized, fun v hv => by cases hv; exact hsized'⟩, ?_⟩
    have hused := hmain recovered rfl
    rw [hμ.nil] at hused
    simp only [outstanding, htrans, Option.map_some, Option.getD_some]
    cases result with
    | error e =>
        have hworth := worth_keeps (ω := ω) (h.transitionDecoder transDec htrans) htransition
        simp only [Except.toOption, Option.getD_none, hμ.nil]
        omega
    | ok out =>
        have hboth := hsecond out rfl
        simp only [Except.toOption, Option.getD_some]
        omega

theorem AllSized.onSend (h : AllSized fec) {pkt : Packet} {queue queue' : List Packet}
    (hsend : fec.onSend F env pkt queue = .ok (queue', fec')) :
    AllSized fec' ∧ outstanding ω fec' ≤ outstanding ω fec := by
  obtain ⟨clone, rfl⟩ := onSend_state hsend
  unfold countDown
  split
  · dsimp only
    split
    · refine ⟨⟨h.decoder, fun v hv => by cases hv⟩, ?_⟩
      simp only [outstanding, Option.map_none, Option.getD_none]
      omega
    · exact ⟨⟨h.decoder, h.transitionDecoder⟩, le_rfl⟩
  · exact ⟨⟨h.decoder, h.transitionDecoder⟩, le_rfl⟩

private theorem worth_new (mode : FecMode) (k : ℕ) : worth ω (DecoderVariant.new mode k) = ω k := by
  rw [worth, DecoderVariant.new_isDecoded, DecoderVariant.new_k]
  rfl

theorem AllSized.reportLoss (h : AllSized fec) (r : Reading) :
    AllSized (fec.reportLoss r) ∧
      outstanding ω (fec.reportLoss r) ≤ outstanding ω fec + ω (fec.modeMgr.update r).2.currentWindow := by
  rw [reportLoss_eq]
  cases (fec.modeMgr.update r).1 with
  | some prev =>
      refine ⟨⟨DecoderVariant.sized_new _ _, fun v hv => by cases hv; exact h.decoder⟩, ?_⟩
      simp only [outstanding, worth_new, Option.map_some, Option.getD_some]
      omega
  | none =>
      refine ⟨⟨DecoderVariant.sized_new _ _, h.transitionDecoder⟩, ?_⟩
      simp only [outstanding, worth_new]
      omega

theorem AllSized.run (hμ : Covers ω μ) (h : AllSized fec) {calls : List Call} {outs : List (List Packet)}
    (hrun : runAll (returns F env) fec calls = .ok (outs, fec')) :
    (outs.map μ).sum + outstanding ω fec' ≤
      outstanding ω fec + ((reportedWindows fec.modeMgr calls).map ω).sum := by
  induction calls generalizing fec outs with
  | nil =>
      cases hrun
      simp [reportedWindows]
  | cons call calls ih =>
      obtain ⟨out, next, outs', hstep, hrest, rfl⟩ := runAll_cons_eq_ok.mp hrun
      rw [List.map_cons, List.sum_cons]
      cases call with
      | send pkt queue =>
          rw [returns, bind_eq_ok] at hstep
          obtain ⟨⟨queue', fec₁⟩, hsend, hstep⟩ := hstep
          cases hstep
          obtain ⟨hsized, hworth⟩ := h.onSend (ω := ω) hsend
          obtain ⟨clone, hstate⟩ := onSend_state hsend
          have hmgr : next.modeMgr = fec.modeMgr := by rw [hstate, countDown_modeMgr]
          have htail := ih hsized hrest
          rw [hmgr] at htail
          rw [hμ.nil, reportedWindows]
          omega
      | receive pkt =>
          rw [returns, bind_eq_ok] at hstep
          obtain ⟨⟨result, fec₁⟩, hrec, hstep⟩ := hstep
          cases hstep
          obtain ⟨hsized, hworth⟩ := h.onReceive hμ hrec
          have hmgr : next.modeMgr = fec.modeMgr := (onReceive_keeps hrec).1
          have htail := ih hsized hrest
          rw [hmgr] at htail
          rw [reportedWindows]
          omega
      | reportLoss r =>
          cases hstep
          obtain ⟨hsized, hworth⟩ := h.reportLoss (ω := ω) r
          have htail := ih hsized hrest
          rw [reportLoss_modeMgr] at htail
          rw [hμ.nil, reportedWindows, List.map_cons, List.sum_cons]
          omega

private theorem covers_length : Covers id List.length := ⟨rfl, fun _ _ => List.length_append.le, fun _ _ h => h⟩

private theorem covers_nonempty : Covers (fun _ => 1) fun out => if out = [] then 0 else 1 where
  nil := rfl
  append a b := by
    by_cases ha : a = []
    · simp [ha]
    · simp [ha]
  batch a _ _ := by split <;> omega

private theorem allSized_new (mode : FecMode) (windowSizes : FecMode → Option ℕ) (now : ℕ) :
    AllSized (new mode windowSizes now) where
  decoder := DecoderVariant.sized_new _ _
  transitionDecoder := fun _ hv => by cases hv

private theorem outstanding_new (mode : FecMode) (windowSizes : FecMode → Option ℕ) (now : ℕ) :
    outstanding ω (new mode windowSizes now) = ω (ModeManager.windowFor windowSizes mode) :=
  worth_new _ _

/-- Whatever is sent, received and reported, a codec returns at most the packets of its first window and of one window
for each report, and it returns packets at most once for each of these windows. -/
theorem returned_within_windows (F : Gf16Arith) (env : Platform) (mode : FecMode) (windowSizes : FecMode → Option ℕ)
    (now : ℕ) {calls : List Call} {outs : List (List Packet)}
    (hrun : runAll (returns F env) (new mode windowSizes now) calls = .ok (outs, fec)) :
    let windows := reportedWindows (ModeManager.new mode windowSizes now) calls
    outs.flatten.length ≤ ModeManager.windowFor windowSizes mode + windows.sum ∧
      (outs.filter fun out => out ≠ []).length ≤ 1 + windows.length := by
  intro windows
  have hsized := allSized_new mode windowSizes now
  have hpackets := hsized.run covers_length hrun
  have hcalls := hsized.run covers_nonempty hrun
  rw [outstanding_new] at hpackets hcalls
  constructor
  · rw [List.length_flatten]
    rw [List.map_id] at hpackets
    exact (Nat.le_add_right _ _).trans hpackets
  · have hcount : (outs.filter fun out => out ≠ []).length = (outs.map fun out => if out = [] then 0 else 1).sum := by
      clear hrun hpackets hcalls
      induction outs with
      | nil => rfl
      | cons out outs ih =>
          rw [List.filter_cons, List.map_cons, List.sum_cons, ← ih]
          by_cases hout : out = []
          · simp [hout]
          · simp [hout]
            omega
    have hwindows : (windows.map fun _ => 1).sum = windows.length := by simp
    rw [hcount, ← hwindows]
    exact (Nat.le_add_right _ _).trans hcalls

theorem returned_within_windows_second_ignored : ∃ outs fec,
    runAll (returns gf16Arith ⟨.scalar, 2⟩) (new .light (fun _ => some 1) 0)
      [.receive (sourcePacket 0), .receive (sourcePacket 1)] = .ok (outs, fec) ∧
    outs = [[sourcePacket 0], []] ∧ outs.flatten.length ≤ 1 ∧ (outs.filter fun out => out ≠ []).length ≤ 1 := by
  obtain ⟨⟨outs, fec⟩, hrun, houts⟩ := exists_ok_of_any
    (x := runAll (returns gf16Arith ⟨.scalar, 2⟩) (new .light (fun _ => some 1) 0)
      [.receive (sourcePacket 0), .receive (sourcePacket 1)])
    (p := fun r => decide (r.1 = [[sourcePacket 0], []])) (by decide +kernel)
  have hbound := returned_within_windows gf16Arith ⟨.scalar, 2⟩ .light (fun _ => some 1) 0 hrun
  exact ⟨outs, fec, hrun, of_decide_eq_true houts, hbound.1, hbound.2⟩

end AdaptiveFec

end QuicFuscate.Fec
