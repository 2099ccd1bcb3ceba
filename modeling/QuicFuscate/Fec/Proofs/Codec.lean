import QuicFuscate.Fec.Proofs.Parsers

/-!
# Frames round trip

The frame of a packet is a flag byte, for repair packets the coefficient length and the
coefficients, and the payload.  The writer puts exactly that list into the buffer, and the reader
takes exactly that list apart again.
-/

namespace QuicFuscate.Fec

open Framework

namespace Packet

/-! ## Writing -/

def frameCoeffs (p : Packet) : List UInt8 :=
  match p.coefficients with
  | some c => (toBeBytes (UInt16.ofNat p.coeffLen)).1 :: (toBeBytes (UInt16.ofNat p.coeffLen)).2 ::
      c.take p.coeffLen
  | none => []

def frame (p : Packet) : List UInt8 :=
  (if p.isSystematic then 1 else 0) :: (p.frameCoeffs ++ (p.data.getD []).take p.len)

/-- A packet as `send` and the encoders build it. -/
structure Built (p : Packet) : Prop where
  systematic_iff : p.isSystematic = true ↔ p.coefficients = none
  coeffLen_none : p.coefficients = none → p.coeffLen = 0
  coeffLen_some : ∀ c, p.coefficients = some c → p.coeffLen ≤ 65535 ∧ p.coeffLen ≤ c.length
  data_some : ∃ d, p.data = some d ∧ p.len ≤ d.length

def frameSize (p : Packet) : ℕ := p.len + 1 + (if p.coefficients.isSome then 2 + p.coeffLen else 0)

theorem Built.frame_length {p : Packet} (h : p.Built) : p.frame.length = p.frameSize := by
  obtain ⟨d, hd, hlen⟩ := h.data_some
  rw [frame, frameSize, frameCoeffs, hd]
  cases hc : p.coefficients with
  | none =>
      simp
      omega
  | some c =>
      have hle := (h.coeffLen_some c hc).2
      simp
      omega

private theorem set_zero_eq {buffer : List UInt8} (h : 0 < buffer.length) (b : UInt8) :
    buffer.set 0 b = b :: buffer.drop 1 := by
  cases buffer with
  | nil => simp at h
  | cons x xs => rfl

theorem toRaw_ok {p : Packet} (h : p.Built) {buffer : List UInt8}
    (hbuf : p.frameSize ≤ buffer.length) :
    p.toRaw buffer = .ok (.ok (p.frame ++ buffer.drop p.frameSize, p.frameSize)) := by
  obtain ⟨d, hd, hlen⟩ := h.data_some
  have hslice : sliceOf d 0 p.len = .ok (d.take p.len) := sliceOf_of_le (Nat.zero_le _) hlen
  have hdl : (d.take p.len).length = p.len := List.length_take_of_le hlen
  have hpos : 0 < buffer.length := by
    rw [frameSize] at hbuf
    omega
  rw [toRaw]
  change (if buffer.length < p.frameSize then _ else _) = _
  rw [if_neg (not_lt.mpr hbuf), writeAt_of_lt hpos, ok_bind, set_zero_eq hpos, ← List.singleton_append]
  cases hc : p.coefficients with
  | none =>
      have hsize : p.frameSize = 1 + p.len := by
        simp [frameSize, hc]
        omega
      have hrest : (d.take p.len).length ≤ (buffer.drop 1).length := by
        rw [hdl, List.length_drop]
        omega
      simp only [hd, hslice, ok_bind, pure_eq_ok]
      rw [copyAt_append (by simp) hrest, ok_bind, List.drop_drop, hdl, ← hsize]
      simp [frame, frameCoeffs, hc, hd]
  | some c =>
      have hle := (h.coeffLen_some c hc).2
      have hcslice : sliceOf c 0 p.coeffLen = .ok (c.take p.coeffLen) :=
        sliceOf_of_le (Nat.zero_le _) hle
      have hcl : (c.take p.coeffLen).length = p.coeffLen := List.length_take_of_le hle
      have hsize : p.frameSize = 1 + 2 + p.coeffLen + p.len := by
        simp [frameSize, hc]
        omega
      simp only [hd, hslice, hcslice, ok_bind, pure_eq_ok]
      rw [copyAt_append (by simp) (by simp; omega), ok_bind,
        copyAt_append (by simp) (by simp; omega), ok_bind,
        copyAt_append (by simp; omega) (by simp; omega), ok_bind]
      simp only [List.drop_drop, List.length_cons, List.length_nil, hcl, hdl, ← hsize,
        Nat.add_assoc]
      simp [frame, frameCoeffs, hc, hd, hsize, Nat.add_assoc]
      omega

theorem toRaw_cases {p : Packet} {buffer : List UInt8} {r : Except QuicheError (List UInt8 × ℕ)}
    (h : p.toRaw buffer = .ok r) :
    (r = .error .bufferTooShort ∧ buffer.length < p.frameSize) ∨
      (p.frameSize ≤ buffer.length ∧ (∃ out, r = .ok (out, p.frameSize) ∧ out.length = buffer.length) ∧
        (∀ c, p.coefficients = some c → p.coeffLen ≤ c.length) ∧ ∀ d, p.data = some d → p.len ≤ d.length) := by
  rw [toRaw] at h
  change (if buffer.length < p.frameSize then _ else _) = _ at h
  by_cases hshort : buffer.length < p.frameSize
  · rw [if_pos hshort] at h
    exact .inl ⟨(Except.ok.inj h).symm, hshort⟩
  rw [if_neg hshort, bind_eq_ok] at h
  obtain ⟨b₁, hb₁, h⟩ := h
  have hb₁ := writeAt_length hb₁
  refine .inr ⟨not_lt.mp hshort, ?_⟩
  cases hc : p.coefficients with
  | none =>
      have hsize : p.frameSize = 1 + p.len := by simp [frameSize, hc, Nat.add_comm]
      simp only [hc, ok_bind, pure_eq_ok, ← hsize] at h
      cases hd : p.data with
      | none =>
          simp only [hd] at h
          exact ⟨⟨b₁, (Except.ok.inj h).symm, hb₁⟩, by simp, by simp⟩
      | some d =>
          simp only [hd, bind_eq_ok] at h
          obtain ⟨payload, hpayload, b₂, hb₂, h⟩ := h
          refine ⟨⟨b₂, (Except.ok.inj h).symm, (copyAt_length hb₂).trans hb₁⟩, by simp, ?_⟩
          rintro _ ⟨rfl⟩
          exact (sliceOf_eq_ok hpayload).1.2
  | some c =>
      have hsize : p.frameSize = 3 + p.coeffLen + p.len := by
        simp [frameSize, hc]
        omega
      simp only [hc, bind_eq_ok, ok_bind, pure_eq_ok, ← hsize] at h
      obtain ⟨b₂, hb₂, coeffs, hcoeffs, b₃, hb₃, h⟩ := h
      have hb₃ : b₃.length = buffer.length := (copyAt_length hb₃).trans ((copyAt_length hb₂).trans hb₁)
      have hcoeffLen : ∀ c', some c = some c' → p.coeffLen ≤ c'.length := by
        rintro _ ⟨rfl⟩
        exact (sliceOf_eq_ok hcoeffs).1.2
      cases hd : p.data with
      | none =>
          simp only [hd] at h
          exact ⟨⟨b₃, (Except.ok.inj h).symm, hb₃⟩, hcoeffLen, by simp⟩
      | some d =>
          simp only [hd, bind_eq_ok] at h
          obtain ⟨payload, hpayload, b₄, hb₄, h⟩ := h
          refine ⟨⟨b₄, (Except.ok.inj h).symm, (copyAt_length hb₄).trans hb₃⟩, hcoeffLen, ?_⟩
          rintro _ ⟨rfl⟩
          exact (sliceOf_eq_ok hpayload).1.2

/-! ## Reading -/

def normalized (raw : List UInt8) : List UInt8 :=
  (if raw[0]? = some 1 then 1 else 0) :: raw.drop 1

private theorem packet_frame {raw : List UInt8} {f : Frame} (h : Frame.parse raw = .ok f) (id : ℕ)
    (coeffRest rest : List UInt8) :
    (f.packet id coeffRest rest).Built ∧ (f.packet id coeffRest rest).frameSize = raw.length ∧
      (f.packet id coeffRest rest).frame = normalized raw := by
  have hmeaning := Frame.meaning_parse raw
  rw [h] at hmeaning
  cases hmeaning with
  | systematic payload =>
      refine ⟨⟨by simp [Frame.packet], by simp [Frame.packet, Frame.coeffLen], by simp [Frame.packet], _, rfl,
        ?_⟩, ?_, ?_⟩
      · simp [Frame.packet]
      · simp [Frame.packet, frameSize]
      · simp [Frame.packet, frame, frameCoeffs, normalized]
  | @repair flag hi lo coeffs payload hflag hcoeffs =>
      have hmax := (fromBeBytes hi lo).toNat_lt
      have hword : toBeBytes (UInt16.ofNat coeffs.length) = (hi, lo) := by
        rw [hcoeffs, UInt16.ofNat_toNat, toBeBytes_fromBeBytes]
      refine ⟨⟨by simp [Frame.packet], by simp [Frame.packet], ?_, _, rfl, ?_⟩, ?_, ?_⟩
      · intro c hc
        cases hc
        simp only [Frame.packet, Frame.coeffLen, Option.getD_some, List.length_append]
        omega
      · simp [Frame.packet]
      · simp [Frame.packet, Frame.coeffLen, frameSize]
        omega
      · simp [Frame.packet, Frame.coeffLen, frame, frameCoeffs, normalized, hword, hflag]

def parts (p : Packet) : Frame := ⟨p.coefficients.map (List.take p.coeffLen), (p.data.getD []).take p.len⟩

variable {p : Packet}

theorem Built.isSystematic_false (h : p.Built) {c : List UInt8} (hc : p.coefficients = some c) :
    p.isSystematic = false := by
  rw [← Bool.not_eq_true, h.systematic_iff, hc]
  simp

theorem Built.parse_frame (h : p.Built) : Frame.parse p.frame = .ok p.parts := by
  cases hc : p.coefficients with
  | none => simp [Frame.parse, frame, frameCoeffs, parts, hc, h.systematic_iff.mpr hc]
  | some c =>
      obtain ⟨hmax, hle⟩ := h.coeffLen_some c hc
      have hword : (fromBeBytes (toBeBytes (UInt16.ofNat p.coeffLen)).1 (toBeBytes (UInt16.ofNat p.coeffLen)).2).toNat =
          p.coeffLen := by
        rw [fromBeBytes_toBeBytes, UInt16.toNat_ofNat_of_lt' (by simpa using Nat.lt_succ_of_le hmax)]
      have hcl : (c.take p.coeffLen).length = p.coeffLen := List.length_take_of_le hle
      simp [Frame.parse, frame, frameCoeffs, parts, hc, h.isSystematic_false hc, hword, hcl]

theorem Built.coeffLen_parts (h : p.Built) : p.parts.coeffLen = p.coeffLen := by
  cases hc : p.coefficients with
  | none => simp [parts, Frame.coeffLen, hc, h.coeffLen_none hc]
  | some c => simp [parts, Frame.coeffLen, hc, (h.coeffLen_some c hc).2]

theorem Built.sameContent_parts (h : p.Built) (id : ℕ) (coeffRest rest : List UInt8) :
    SameContent p (p.parts.packet id coeffRest rest) := by
  obtain ⟨d, hd, hlen⟩ := h.data_some
  refine ⟨?_, h.coeffLen_parts, ?_, ?_, ?_⟩
  · cases hc : p.coefficients with
    | none => simp [parts, Frame.packet, hc, h.systematic_iff.mpr hc]
    | some c => simp [parts, Frame.packet, hc, h.isSystematic_false hc]
  · cases hc : p.coefficients with
    | none => simp [parts, Frame.packet, hc]
    | some c => simp [parts, Frame.packet, Frame.coeffLen, hc, (h.coeffLen_some c hc).2]
  · simp [parts, Frame.packet, hd, hlen]
  · simp [parts, Frame.packet, hd, hlen]

theorem fromBlock_frame {p : Packet} (h : p.Built) {env : Platform}
    (henv : p.frameSize ≤ env.blockSize) (id : ℕ) (rest : List UInt8) :
    ∃ q, fromBlock env id (p.frame ++ rest) p.frameSize = .ok (.ok q) ∧ q.id = id ∧
      SameContent p q := by
  have hfits : p.coeffLen ≤ p.frameSize := by
    rw [← h.coeffLen_parts, ← h.frame_length]
    exact (Frame.parse_length h.parse_frame).1
  have hread := fromBlock_eq env id p.frame rest
  rw [h.frame_length, h.parse_frame] at hread
  dsimp only at hread
  rw [h.coeffLen_parts, if_neg (by omega)] at hread
  exact ⟨_, hread, rfl, h.sameContent_parts _ _ _⟩

theorem fromBlock_sound {env : Platform} {id len : ℕ} {block : List UInt8} {q : Packet}
    (h : fromBlock env id block len = .ok (.ok q)) :
    q.Built ∧ q.frameSize = len ∧ q.frame = normalized (block.take len) ∧
      ∃ d, q.data = some d ∧ d.length = block.length := by
  have hle : len ≤ block.length := by
    by_contra hlong
    rw [fromBlock, if_pos (.inr (not_le.mp hlong))] at h
    cases h
  have hlen : (block.take len).length = len := List.length_take_of_le hle
  have hread := fromBlock_eq env id (block.take len) (block.drop len)
  rw [List.take_append_drop, hlen, h] at hread
  cases hparse : Frame.parse (block.take len) with
  | error t =>
      rw [hparse] at hread
      cases hread
  | ok f =>
      rw [hparse] at hread
      dsimp only at hread
      split at hread
      · cases hread
      · cases hread
        obtain ⟨hbuilt, hsize, hframe⟩ := packet_frame hparse id (env.alloc.drop f.coeffLen)
          (block.drop f.payload.length)
        have hpayload := (Frame.parse_length hparse).2
        refine ⟨hbuilt, hsize.trans hlen, hframe, _, rfl, ?_⟩
        rw [List.length_append, List.length_drop]
        omega

/-- Writing and reading are inverse to each other: a packet comes back from its frame, and an
accepted string comes back from the packet that was read, with a flag byte of zero or one. -/
theorem frame_roundTrip :
    (∀ p : Packet, p.Built → ∀ buffer : List UInt8, p.frameSize ≤ buffer.length →
      ∃ out, p.toRaw buffer = .ok (.ok (out, p.frameSize)) ∧
        ∀ (env : Platform) (id : ℕ) (block : List UInt8), p.frameSize ≤ env.blockSize →
          block.take p.frameSize = out.take p.frameSize →
          ∃ q, fromBlock env id block p.frameSize = .ok (.ok q) ∧ q.id = id ∧ SameContent p q) ∧
    (∀ (env : Platform) (id len : ℕ) (block : List UInt8) (q : Packet),
      fromBlock env id block len = .ok (.ok q) → ∀ buffer : List UInt8, len ≤ buffer.length →
        ∃ out, q.toRaw buffer = .ok (.ok (out, len)) ∧
          out.take len = normalized (block.take len)) := by
  constructor
  · intro p hp buffer hbuf
    refine ⟨_, toRaw_ok hp hbuf, fun env id block henv hblock => ?_⟩
    rw [List.take_left' hp.frame_length] at hblock
    rw [← List.take_append_drop p.frameSize block, hblock]
    exact fromBlock_frame hp henv id _
  · intro env id len block q hq buffer hbuf
    obtain ⟨hbuilt, hsize, hframe, -⟩ := fromBlock_sound hq
    have hraw := toRaw_ok hbuilt (hsize.symm ▸ hbuf)
    have hlen := hbuilt.frame_length
    rw [hsize] at hraw hlen
    exact ⟨_, hraw, by rw [List.take_left' hlen, hframe]⟩

theorem frame_roundTrip_repair :
    ∃ q, fromBlock ⟨.scalar, 8⟩ 7 [0, 0, 2, 5, 6, 9, 1, 1] 6 = .ok (.ok q) ∧ q.id = 7 ∧
      SameContent ⟨0, some [9, 3], 1, false, some [5, 6, 7], 2⟩ q := by
  obtain ⟨out, hout, hread⟩ := frame_roundTrip.1 ⟨0, some [9, 3], 1, false, some [5, 6, 7], 2⟩
    ⟨by decide, by decide, by rintro c ⟨rfl⟩; decide, _, rfl, by decide⟩ (List.replicate 6 0)
    (by decide)
  refine hread ⟨.scalar, 8⟩ 7 [0, 0, 2, 5, 6, 9, 1, 1] (by decide) ?_
  have heval : toRaw ⟨0, some [9, 3], 1, false, some [5, 6, 7], 2⟩ (List.replicate 6 0) =
      .ok (.ok ([0, 0, 2, 5, 6, 9], 6)) := by decide
  rw [heval] at hout
  simp only [Except.ok.injEq, Prod.mk.injEq] at hout
  rw [← hout.1]
  rfl

end Packet

end QuicFuscate.Fec
