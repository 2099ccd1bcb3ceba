import Mathlib.Data.List.ReduceOption
import QuicFuscate.Core.Proofs.Connection
import QuicFuscate.Fec.Proofs.Parsers
import QuicFuscate.Stealth.Proofs.XorObfuscator

/-!
# What stands on the wire

A packet of the library leaves in the call that takes it, ahead of its repair packets, and only repair
packets ever wait.  Reading the systematic frames off the wire therefore gives the packets of the library
in their order, each masked with the key of its call.
-/

namespace QuicFuscate.Core

open Framework Fec Stealth

/-- What a manager makes of an outgoing payload. -/
def maskedBy (m : StealthManager) (payload : List UInt8) : List UInt8 :=
  match m.enableXorObfuscation, m.xorObfuscator with
  | true, some o => o.mask payload
  | _, _ => payload

private theorem maskedBy_length (m : StealthManager) (payload : List UInt8) :
    (maskedBy m payload).length = payload.length := by
  unfold maskedBy
  split
  · unfold XorObfuscator.mask
    split
    · rfl
    · exact masked_length _ _ _
  · rfl

private theorem processOutgoingPacket_maskedBy (sha256 : Sha256) (cpu : CpuFeatures) (m : StealthManager)
    (payload : List UInt8) :
    ∃ m', m.processOutgoingPacket sha256 cpu payload = .ok (maskedBy m payload, m') := by
  obtain ⟨enabled, obfuscator⟩ := m
  cases enabled with
  | false => exact ⟨_, rfl⟩
  | true =>
      cases obfuscator with
      | none => exact ⟨_, rfl⟩
      | some o => exact ⟨_, StealthManager.processOutgoingPacket_enabled sha256 cpu o payload⟩

def systematicPayload (bytes : List UInt8) : Option (List UInt8) :=
  match Frame.parse bytes with
  | .ok ⟨none, payload⟩ => some payload
  | _ => none

private theorem systematicPayload_one (payload : List UInt8) : systematicPayload (1 :: payload) = some payload := rfl

private theorem systematicPayload_of_flag {bytes : List UInt8} (h : bytes.head? ≠ some 1) :
    systematicPayload bytes = none := by
  have hmeaning := Frame.meaning_parse bytes
  unfold systematicPayload
  cases hparse : Frame.parse bytes with
  | error e => rfl
  | ok f =>
      rw [hparse] at hmeaning
      cases hmeaning with
      | systematic payload => exact absurd rfl h
      | repair payload hflag hcoeffs => rfl

/-! ## Frames -/

private theorem copyAt_head {xs ys zs : List UInt8} {off : ℕ} (hoff : 0 < off) (h : copyAt xs off ys = .ok zs) :
    zs.head? = xs.head? := by
  unfold copyAt at h
  split at h
  · rw [← Except.ok.inj h, List.append_assoc]
    cases xs with
    | nil =>
        rename_i hle
        simp only [List.length_nil] at hle
        omega
    | cons x xs =>
        obtain ⟨n, rfl⟩ := Nat.exists_eq_add_of_lt hoff
        rw [Nat.zero_add, List.take_succ_cons]
        rfl
  · cases h

private theorem writeAt_head {xs zs : List UInt8} {x : UInt8} (h : writeAt xs 0 x = .ok zs) : zs.head? = some x := by
  unfold writeAt at h
  split at h
  · rename_i hpos
    rw [← Except.ok.inj h]
    cases xs with
    | nil => cases hpos
    | cons y ys => rfl
  · cases h

private theorem toRaw_head {p : Packet} {buffer buf : List UInt8} {len : ℕ}
    (h : p.toRaw buffer = .ok (.ok (buf, len))) :
    buf.head? = some (if p.isSystematic then 1 else 0) := by
  unfold Packet.toRaw at h
  dsimp only at h
  generalize p.len + 1 + (if p.coefficients.isSome then 2 + p.coeffLen else 0) = required at h
  split at h
  · cases h
  rw [bind_eq_ok] at h
  obtain ⟨flagged, hflag, h⟩ := h
  rw [← writeAt_head hflag]
  cases hc : p.coefficients with
  | none =>
      simp only [hc, ok_bind, pure_eq_ok] at h
      cases hd : p.data with
      | none =>
          simp only [hd, Except.ok.injEq, Prod.mk.injEq] at h
          rw [h.1]
      | some data =>
          simp only [hd, bind_eq_ok] at h
          obtain ⟨payload, -, written, hwritten, h⟩ := h
          cases h
          exact copyAt_head Nat.one_pos hwritten
  | some coeffs =>
      simp only [hc, bind_eq_ok] at h
      obtain ⟨b₁, hb₁, front, -, b₂, hb₂, ⟨middle, offset⟩, hmiddle, h⟩ := h
      cases hmiddle
      rw [← copyAt_head Nat.one_pos hb₁, ← copyAt_head (by decide) hb₂]
      cases hd : p.data with
      | none =>
          simp only [hd, ok_bind, pure_eq_ok, Except.ok.injEq, Prod.mk.injEq] at h
          rw [h.1]
      | some data =>
          simp only [hd, bind_eq_ok] at h
          obtain ⟨payload, -, written, hwritten, h⟩ := h
          cases h
          exact copyAt_head (by omega) hwritten

namespace QuicFuscateConnection

variable {host : Host} {c c' : QuicFuscateConnection} {input : SendInput} {out : SendCall}

/-! ## Calls -/

/-- The packet that a call with room for its frame takes from the library, as it is masked. -/
def carried (c : QuicFuscateConnection) (input : SendInput) : Option (List UInt8) :=
  match c.outgoingFecPackets, input.library with
  | [], .ok bytes =>
      if bytes ≠ [] ∧ bytes.length < input.buf.length then some (maskedBy c.stealthManager bytes) else none
  | _, _ => none

def payloadOnWire (out : SendCall) : Option (List UInt8) :=
  out.datagram.bind fun datagram => systematicPayload datagram.bytes

/-- Without an XDP socket, and with nothing but repair packets in the queue. -/
structure Framing (c : QuicFuscateConnection) : Prop where
  noSocket : c.xdpSocket = false
  repairs : ∀ p ∈ c.outgoingFecPackets, p.IsRepair

private theorem framing_new (fec : AdaptiveFec) (m : StealthManager) : (new fec m false).Framing where
  noSocket := rfl
  repairs := by
    intro p hp
    cases hp

private theorem enqueue_masks {bytes : List UInt8} (hqueue : c.outgoingFecPackets = [])
    (h : c.enqueue host bytes = .ok c') :
    ∃ rest repairs, c'.outgoingFecPackets =
      ⟨c.packetIdCounter, some (maskedBy c.stealthManager bytes ++ rest), bytes.length, true, none, 0⟩ :: repairs := by
  simp only [enqueue, bind_eq_ok] at h
  obtain ⟨block, hblock, ⟨payload, m⟩, hpayload, buffer, hbuffer, ⟨queue, fec⟩, hsend, h⟩ := h
  obtain ⟨m', hmasked⟩ := processOutgoingPacket_maskedBy host.sha256 host.cpu c.stealthManager bytes
  rw [hmasked] at hpayload
  obtain ⟨rfl, rfl⟩ := Prod.mk.inj (Except.ok.inj hpayload)
  obtain ⟨repairs, rfl, -⟩ := AdaptiveFec.onSend_appends hsend
  unfold copyFront at hbuffer
  split at hbuffer
  · rw [← Except.ok.inj h, ← Except.ok.inj hbuffer, hqueue]
    exact ⟨_, repairs, rfl⟩
  · cases hbuffer

theorem Transmits.payloadOnWire_repair {p : Packet} {rest : List Packet} (hc : c.xdpSocket = false) (hp : p.IsRepair)
    (h : Transmits c c' input out p rest) : payloadOnWire out = none := by
  cases hdatagram : out.datagram with
  | none => rw [payloadOnWire, hdatagram, Option.bind_none]
  | some datagram =>
      obtain ⟨len, hlen⟩ := h.datagram hdatagram
      rcases transmit_cases hlen with ⟨-, e, he⟩ | ⟨-, len', bytes, hr, hbytes⟩
      · cases he
      · obtain ⟨rfl, rfl⟩ := Prod.mk.inj (Except.ok.inj hr)
        rw [hc, if_neg Bool.false_ne_true] at hbytes
        obtain ⟨buf, hraw, hroom, rfl⟩ := hbytes
        have hhead := toRaw_head hraw
        rw [hp.isSystematic_eq] at hhead
        rw [payloadOnWire, hdatagram, Option.bind_some]
        apply systematicPayload_of_flag
        have hpos : 0 < p.frameSize := by
          unfold Packet.frameSize
          omega
        rw [List.head?_take, if_neg hpos.ne', hhead]
        decide

theorem Transmits.payloadOnWire_systematic {p : Packet} {payload rest : List UInt8} {repairs : List Packet}
    (hc : c.xdpSocket = false) (hp : p = ⟨p.id, some (payload ++ rest), payload.length, true, none, 0⟩)
    (h : Transmits c c' input out p repairs) :
    payloadOnWire out = if payload.length < input.buf.length then some payload else none := by
  have hbuilt : p.Built := by
    rw [hp]
    exact ⟨by simp, fun _ => rfl, by simp, payload ++ rest, rfl, by simp⟩
  have hframe : p.frame = 1 :: payload := by
    rw [hp]
    simp [Packet.frame, Packet.frameCoeffs]
  have hsize : p.frameSize = payload.length + 1 := by
    rw [← hbuilt.frame_length, hframe, List.length_cons]
  obtain ⟨-, r, hr, hout⟩ := h
  rw [hc] at hr
  rcases transmit_cases hr with ⟨hshort, e, rfl⟩ | ⟨hroom, len, bytes, rfl, hbytes⟩
  · have hshort' : ¬ payload.length < input.buf.length := by
      simpa [Accepts, hsize, Nat.lt_succ_iff] using hshort
    rw [payloadOnWire, hout.2, if_neg hshort']
    rfl
  · have hroom' : payload.length < input.buf.length := by
      simpa [Accepts, hsize, Nat.succ_le_iff] using hroom
    rw [if_neg Bool.false_ne_true] at hbytes
    obtain ⟨buf, hraw, -, rfl⟩ := hbytes
    rw [Packet.toRaw_ok hbuilt (by rw [hsize]; exact hroom')] at hraw
    obtain ⟨rfl, -⟩ := Prod.mk.inj (Except.ok.inj (Except.ok.inj hraw))
    rw [payloadOnWire, hout.2, Option.bind_some, if_pos hroom', List.take_left' hbuilt.frame_length, hframe]
    exact systematicPayload_one payload

/-- One call puts the packet that it takes on the wire, and nothing that could be taken for one. -/
private theorem send_payloadOnWire (hc : c.Framing) (h : c.send host input = .ok (out, c')) :
    payloadOnWire out = c.carried input ∧ c'.Framing := by
  rcases send_cases h with ⟨hqueue, hlib, hnone, -, rfl⟩ | ⟨p, rest, hqueue, -, htrans⟩ |
    ⟨hqueue, bytes, c₁, fresh, repairs, hlib, hne, henqueue, hq, -, hrepairs, -, htrans⟩
  · refine ⟨?_, hc⟩
    rw [payloadOnWire, hnone, carried, hqueue]
    cases hl : input.library with
    | error e => rfl
    | ok bytes => simp [hlib bytes hl]
  · have hp : p.IsRepair := hc.repairs p (by rw [hqueue]; exact List.mem_cons_self)
    refine ⟨?_, ?_⟩
    · rw [htrans.payloadOnWire_repair hc.noSocket hp, carried, hqueue]
    · rw [htrans.1]
      exact ⟨hc.noSocket, fun q hq => hc.repairs q (by rw [hqueue]; exact List.mem_cons_of_mem p hq)⟩
  · have hsocket : c₁.xdpSocket = false := (enqueue_cases henqueue).2.2.trans hc.noSocket
    obtain ⟨rest, repairs', hmasked⟩ := enqueue_masks hqueue henqueue
    rw [hq] at hmasked
    obtain ⟨rfl, rfl⟩ := List.cons.inj hmasked
    have hfresh := htrans.payloadOnWire_systematic hsocket
      (by rw [maskedBy_length])
    refine ⟨?_, ?_⟩
    · rw [hfresh, carried, hqueue, hlib, maskedBy_length]
      simp [hne]
    · rw [htrans.1]
      exact ⟨hsocket, hrepairs⟩

/-! ## Runs -/

/-- A call of `send`, with the connection as it finds it. -/
structure SendLog where
  before : QuicFuscateConnection
  input : SendInput
  out : SendCall

def logStep (host : Host) (c : QuicFuscateConnection) : Call → Checked (Option SendLog × QuicFuscateConnection)
  | .send input => do
      let (out, c') ← c.send host input
      return (some ⟨c, input, out⟩, c')
  | .recv input => do
      let (_, c') ← c.recv host input
      return (none, c')
  | .updateState r xdpSocket => return (none, c.updateState r xdpSocket)

def wire (logs : List (Option SendLog)) : List (List UInt8) :=
  logs.reduceOption.filterMap fun log => log.out.datagram.map Datagram.bytes

/-- No call opens an XDP socket. -/
def Call.WithoutSocket : Call → Prop
  | .updateState _ xdpSocket => xdpSocket = false
  | _ => True

theorem Framing.logStep {call : Call} {log : Option SendLog} (h : c.Framing) (hcall : call.WithoutSocket)
    (hstep : c.logStep host call = .ok (log, c')) :
    c'.Framing ∧ ∀ l ∈ log, payloadOnWire l.out = l.before.carried l.input := by
  cases call with
  | send input =>
      rw [QuicFuscateConnection.logStep, bind_eq_ok] at hstep
      obtain ⟨⟨out, next⟩, hsend, hstep⟩ := hstep
      cases hstep
      have hcarried := send_payloadOnWire h hsend
      refine ⟨hcarried.2, ?_⟩
      intro l hl
      rw [← Option.some.inj hl]
      exact hcarried.1
  | recv input =>
      rw [QuicFuscateConnection.logStep, bind_eq_ok] at hstep
      obtain ⟨⟨out, next⟩, hrecv, hstep⟩ := hstep
      cases hstep
      have hkeeps := recv_keeps hrecv
      exact ⟨⟨hkeeps.2.2.trans h.noSocket, hkeeps.1 ▸ h.repairs⟩, by simp⟩
  | updateState r xdpSocket =>
      cases hstep
      exact ⟨⟨hcall, h.repairs⟩, by simp⟩

theorem Framing.run {calls : List Call} {logs : List (Option SendLog)} (h : c.Framing)
    (hcalls : ∀ call ∈ calls, call.WithoutSocket)
    (hrun : runAll (QuicFuscateConnection.logStep host) c calls = .ok (logs, c')) :
    ∀ l ∈ logs.reduceOption, payloadOnWire l.out = l.before.carried l.input := by
  induction calls generalizing c logs with
  | nil =>
      cases hrun
      simp
  | cons call calls ih =>
      obtain ⟨log, next, logs', hfirst, hrest, rfl⟩ := runAll_cons_eq_ok.mp hrun
      obtain ⟨hnext, hlog⟩ := h.logStep (hcalls call List.mem_cons_self) hfirst
      have hlogs := ih hnext (fun call' hmem => hcalls call' (List.mem_cons_of_mem call hmem)) hrest
      intro l hl
      rcases List.mem_cons.mp (List.reduceOption_mem_iff.mp hl) with hhead | htail
      · exact hlog l hhead.symm
      · exact hlogs l (List.reduceOption_mem_iff.mpr htail)

/-- In every run of a connection without XDP sockets, whatever it receives and whatever its codec does, the
systematic frames on the wire hold the packets that the calls took from the library, in their order and
masked with the keys of their calls; a packet is missing exactly when the buffer of its call had no room
for the frame. -/
theorem wire_carries_library (host : Host) (fec : AdaptiveFec) (m : StealthManager) {calls : List Call}
    (hcalls : ∀ call ∈ calls, call.WithoutSocket) {logs : List (Option SendLog)}
    (hrun : runAll (logStep host) (new fec m false) calls = .ok (logs, c)) :
    (wire logs).filterMap systematicPayload = logs.reduceOption.filterMap fun l => l.before.carried l.input := by
  have hlogs := (framing_new fec m).run hcalls hrun
  rw [wire, List.filterMap_filterMap]
  apply List.filterMap_congr
  intro l hl
  rw [← hlogs l hl, payloadOnWire]
  cases l.out.datagram with
  | none => rfl
  | some datagram => rfl

/-- Three packets, of which the second meets a buffer that is too short. -/
def threeSends : List Call :=
  [.send ⟨List.replicate 8 0, .ok [7, 9], .ok ()⟩, .send ⟨[0, 0], .ok [3, 4], .ok ()⟩,
    .recv ⟨[1, 2], .error ""⟩, .send ⟨List.replicate 8 0, .ok [5], .ok ()⟩]

theorem wire_carries_library_three_sends : ∃ logs c',
    runAll (logStep smallHost) (plainConnection false) threeSends = .ok (logs, c') ∧
      (wire logs).filterMap systematicPayload = [[7, 9], [5]] := by
  obtain ⟨logs, c', hrun, hcarried⟩ : ∃ logs c',
      runAll (logStep smallHost) (plainConnection false) threeSends = .ok (logs, c') ∧
        (logs.reduceOption.filterMap fun l => l.before.carried l.input) = [[7, 9], [5]] := ⟨_, _, rfl, rfl⟩
  have hcalls : ∀ call ∈ threeSends, call.WithoutSocket := by
    intro call hcall
    simp only [threeSends, List.mem_cons, List.not_mem_nil, or_false] at hcall
    rcases hcall with rfl | rfl | rfl | rfl
    · trivial
    · trivial
    · trivial
    · trivial
  exact ⟨logs, c', hrun, (wire_carries_library smallHost _ _ hcalls hrun).trans hcarried⟩

end QuicFuscateConnection

end QuicFuscate.Core
