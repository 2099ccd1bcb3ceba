import QuicFuscate.Core.Connection
import QuicFuscate.Fec.Proofs.Codec
import QuicFuscate.Fec.Proofs.Sending

/-!
# What sending does to a connection

A call of `send` is idle, or it transmits the packet at the head of the queue.  The packet leaves the
queue before it is transmitted, so a transport that fails loses it.  On the XDP socket the payload
goes out without a frame, which no peer reads back.
-/

namespace QuicFuscate.Core

open Framework Fec Stealth

namespace QuicFuscateConnection

variable {host : Host} {c c' : QuicFuscateConnection} {input : SendInput} {out : SendCall}

/-! ## Transmission -/

def Accepts (xdpSocket : Bool) (input : SendInput) (size : ℕ) : Prop :=
  if xdpSocket then input.xdp = .ok () else size ≤ input.buf.length

theorem transmit_cases {xdpSocket : Bool} {p : Packet} {r : Except ConnectionError (ℕ × Datagram)}
    (h : transmit xdpSocket input p = .ok r) :
    (¬ Accepts xdpSocket input p.frameSize ∧ ∃ e, r = .error e) ∨
      (Accepts xdpSocket input p.frameSize ∧ ∃ len bytes, r = .ok (len, ⟨p, bytes⟩) ∧
        if xdpSocket then ∃ d, p.data = some d ∧ p.len ≤ d.length ∧ bytes = d.take p.len
        else ∃ buf, p.toRaw input.buf = .ok (.ok (buf, p.frameSize)) ∧ p.frameSize ≤ buf.length ∧
          bytes = buf.take p.frameSize) := by
  cases xdpSocket with
  | true =>
      rw [transmit, if_pos rfl] at h
      simp only [bind_eq_ok] at h
      obtain ⟨d, hd, bytes, hbytes, h⟩ := h
      obtain ⟨⟨-, hlen⟩, hbytes⟩ := sliceOf_eq_ok hbytes
      have hdata : p.data = some d := by
        cases hp : p.data with
        | none => simp [hp, expectSome] at hd
        | some d' => rw [hp] at hd; exact congrArg some (Except.ok.inj hd)
      cases hx : input.xdp with
      | error e =>
          rw [hx] at h
          exact .inl ⟨by simp [Accepts, hx], _, (Except.ok.inj h).symm⟩
      | ok u =>
          rw [hx] at h
          refine .inr ⟨by simp [Accepts, hx], _, _, (Except.ok.inj h).symm, ?_⟩
          rw [if_pos rfl]
          exact ⟨d, hdata, hlen, hbytes⟩
  | false =>
      rw [transmit, if_neg Bool.false_ne_true, bind_eq_ok] at h
      obtain ⟨raw, hraw, h⟩ := h
      rcases Packet.toRaw_cases hraw with ⟨rfl, hshort⟩ | ⟨hroom, ⟨buf, rfl, hbuf⟩, -⟩
      · exact .inl ⟨by simpa [Accepts] using hshort, _, (Except.ok.inj h).symm⟩
      · refine .inr ⟨by simpa [Accepts] using hroom, _, _, (Except.ok.inj h).symm, ?_⟩
        rw [if_neg Bool.false_ne_true]
        exact ⟨buf, hraw, hbuf ▸ hroom, rfl⟩

/-! ## Calls of `send` -/

/-- The packet that a call makes of the bytes of the library. -/
structure IsFresh (c : QuicFuscateConnection) (bytes : List UInt8) (p : Packet) : Prop where
  id_eq : p.id = c.packetIdCounter
  len_eq : p.len = bytes.length
  isSystematic_eq : p.isSystematic = true
  coefficients_eq : p.coefficients = none
  coeffLen_eq : p.coeffLen = 0
  data_isSome : p.data.isSome = true

theorem IsFresh.frameSize {bytes : List UInt8} {p : Packet} (h : IsFresh c bytes p) :
    p.frameSize = bytes.length + 1 := by
  simp [Packet.frameSize, h.coefficients_eq, h.len_eq]

theorem enqueue_cases {bytes : List UInt8} (h : c.enqueue host bytes = .ok c') :
    (∃ fresh repairs, c'.outgoingFecPackets = c.outgoingFecPackets ++ fresh :: repairs ∧ IsFresh c bytes fresh ∧
      ∀ p ∈ repairs, p.IsRepair) ∧
    c'.packetIdCounter = c.packetIdCounter + 1 ∧ c'.xdpSocket = c.xdpSocket := by
  simp only [enqueue, bind_eq_ok] at h
  obtain ⟨block, -, ⟨payload, m⟩, -, buffer, -, ⟨queue, fec⟩, hsend, h⟩ := h
  obtain ⟨repairs, rfl, hrepairs⟩ := AdaptiveFec.onSend_appends hsend
  rw [← Except.ok.inj h]
  exact ⟨⟨_, repairs, rfl, ⟨rfl, rfl, rfl, rfl, rfl, rfl⟩, hrepairs⟩, rfl, rfl⟩

/-- A transmission of `p`, seen from the call: `rest` stays in the queue. -/
def Transmits (c c' : QuicFuscateConnection) (input : SendInput) (out : SendCall) (p : Packet) (rest : List Packet) :
    Prop :=
  c' = { c with outgoingFecPackets := rest } ∧ ∃ r, transmit c.xdpSocket input p = .ok r ∧
    match r with
    | .ok (len, datagram) => out.result = .ok len ∧ out.datagram = some datagram
    | .error e => out.result = .error e ∧ out.datagram = none

private theorem sendQueued_cases {p : Packet} {rest enqueued : List Packet} (hqueue : c.outgoingFecPackets = p :: rest)
    (h : c.sendQueued input enqueued = .ok (out, c')) :
    out.enqueued = enqueued ∧ Transmits c c' input out p rest := by
  rw [sendQueued, hqueue] at h
  dsimp only at h
  rw [bind_eq_ok] at h
  obtain ⟨r, hr, h⟩ := h
  cases r with
  | error e =>
      simp only [pure_eq_ok, Except.ok.injEq, Prod.mk.injEq] at h
      obtain ⟨rfl, rfl⟩ := h
      exact ⟨rfl, rfl, _, hr, rfl, rfl⟩
  | ok sent =>
      simp only [pure_eq_ok, Except.ok.injEq, Prod.mk.injEq] at h
      obtain ⟨rfl, rfl⟩ := h
      exact ⟨rfl, rfl, _, hr, rfl, rfl⟩

/-- What a call can do: nothing, transmit the head of the queue, or take a packet from the library
and transmit it. -/
theorem send_cases (h : c.send host input = .ok (out, c')) :
    (c.outgoingFecPackets = [] ∧ (∀ bytes, input.library = .ok bytes → bytes = []) ∧ out.datagram = none ∧
      out.enqueued = [] ∧ c' = c) ∨
    (∃ p rest, c.outgoingFecPackets = p :: rest ∧ out.enqueued = [] ∧ Transmits c c' input out p rest) ∨
    (c.outgoingFecPackets = [] ∧ ∃ bytes c₁ fresh repairs, input.library = .ok bytes ∧ bytes ≠ [] ∧
      c.enqueue host bytes = .ok c₁ ∧ c₁.outgoingFecPackets = fresh :: repairs ∧ IsFresh c bytes fresh ∧
      (∀ p ∈ repairs, p.IsRepair) ∧ out.enqueued = fresh :: repairs ∧ Transmits c₁ c' input out fresh repairs) := by
  rw [send] at h
  cases hqueue : c.outgoingFecPackets with
  | cons p rest =>
      rw [hqueue] at h
      obtain ⟨henq, htrans⟩ := sendQueued_cases hqueue h
      exact .inr (.inl ⟨p, rest, rfl, henq, htrans⟩)
  | nil =>
      rw [hqueue] at h
      cases hlib : input.library with
      | error e =>
          simp only [hlib, pure_eq_ok, Except.ok.injEq, Prod.mk.injEq] at h
          obtain ⟨rfl, rfl⟩ := h
          exact .inl ⟨rfl, by simp, rfl, rfl, rfl⟩
      | ok bytes =>
          simp only [hlib] at h
          by_cases hempty : bytes.length = 0
          · rw [if_pos hempty] at h
            simp only [pure_eq_ok, Except.ok.injEq, Prod.mk.injEq] at h
            obtain ⟨rfl, rfl⟩ := h
            refine .inl ⟨rfl, ?_, rfl, rfl, rfl⟩
            rintro _ ⟨rfl⟩
            exact List.length_eq_zero_iff.mp hempty
          · rw [if_neg hempty, bind_eq_ok] at h
            obtain ⟨c₁, henqueue, h⟩ := h
            obtain ⟨⟨fresh, repairs, hq, hfresh, hrepairs⟩, -⟩ := enqueue_cases henqueue
            rw [hqueue, List.nil_append] at hq
            obtain ⟨henq, htrans⟩ := sendQueued_cases hq h
            have hne : bytes ≠ [] := fun hnil => hempty (by rw [hnil]; rfl)
            exact .inr (.inr ⟨rfl, bytes, c₁, fresh, repairs, rfl, hne, henqueue, hq, hfresh, hrepairs,
              by rw [henq, hq], htrans⟩)

/-- What a call of `recv` can do: fail before the decoder sees a packet, fail in the decoder, or hand
over what the decoder returns. -/
theorem recv_cases {input : RecvInput} {out : RecvCall} (h : c.recv host input = .ok (out, c')) :
    (out.delivered = [] ∧ c' = c) ∨
    ∃ block len packet recovered fec, c.readBlock host input = .ok (.ok (block, len)) ∧
      Packet.fromBlock host.platform c.incomingId block len = .ok (.ok packet) ∧
      c.fec.onReceive host.gf16 host.platform packet = .ok (recovered, fec) ∧
      ((out.delivered = [] ∧ c' = { c with fec := fec }) ∨
        ∃ packets m, recovered = .ok packets ∧ deliver host c.stealthManager packets = .ok (out.delivered, m) ∧
          c' = { c with fec := fec, stealthManager := m }) := by
  rw [recv, bind_eq_ok] at h
  obtain ⟨block, hblock, h⟩ := h
  cases block with
  | error e =>
      cases h
      exact .inl ⟨rfl, rfl⟩
  | ok block =>
      dsimp only at h
      rw [bind_eq_ok] at h
      obtain ⟨packet, hpacket, h⟩ := h
      cases packet with
      | error e =>
          cases h
          exact .inl ⟨rfl, rfl⟩
      | ok packet =>
          dsimp only at h
          rw [bind_eq_ok] at h
          obtain ⟨⟨recovered, fec⟩, hrec, h⟩ := h
          refine .inr ⟨block.1, block.2, packet, recovered, fec, hblock, hpacket, hrec, ?_⟩
          cases recovered with
          | error e =>
              cases h
              exact .inl ⟨rfl, rfl⟩
          | ok packets =>
              dsimp only at h
              rw [bind_eq_ok] at h
              obtain ⟨⟨delivered, m⟩, hdeliver, h⟩ := h
              cases h
              exact .inr ⟨packets, m, rfl, hdeliver, rfl⟩

theorem recv_keeps {input : RecvInput} {out : RecvCall} (h : c.recv host input = .ok (out, c')) :
    c'.outgoingFecPackets = c.outgoingFecPackets ∧ c'.packetIdCounter = c.packetIdCounter ∧
      c'.xdpSocket = c.xdpSocket := by
  rcases recv_cases h with ⟨-, rfl⟩ | ⟨_, _, _, _, fec, -, -, -, ⟨-, rfl⟩ | ⟨packets, m, -, -, rfl⟩⟩
  · exact ⟨rfl, rfl, rfl⟩
  · exact ⟨rfl, rfl, rfl⟩
  · exact ⟨rfl, rfl, rfl⟩

/-! ## Runs -/

inductive Call
  | send (input : SendInput)
  | recv (input : RecvInput)
  | updateState (r : Reading) (xdpSocket : Bool)

def step (host : Host) (c : QuicFuscateConnection) : Call → Checked (Unit × QuicFuscateConnection)
  | .send input => do
      let (_, c) ← c.send host input
      return ((), c)
  | .recv input => do
      let (_, c) ← c.recv host input
      return ((), c)
  | .updateState r xdpSocket => return ((), c.updateState r xdpSocket)

structure Framed (p : Packet) : Prop where
  systematic_iff : p.isSystematic = true ↔ p.coefficients = none
  coeffLen_none : p.coefficients = none → p.coeffLen = 0
  data_isSome : p.data.isSome = true

theorem IsFresh.framed {bytes : List UInt8} {p : Packet} (h : IsFresh c bytes p) : Framed p where
  systematic_iff := by simp [h.isSystematic_eq, h.coefficients_eq]
  coeffLen_none _ := h.coeffLen_eq
  data_isSome := h.data_isSome

theorem framed_of_isRepair {p : Packet} (h : p.IsRepair) : Framed p where
  systematic_iff := by
    obtain ⟨coeffs, hcoeffs⟩ := Option.isSome_iff_exists.mp h.coefficients_isSome
    simp [h.isSystematic_eq, hcoeffs]
  coeffLen_none := by
    intro hnone
    have hsome := h.coefficients_isSome
    rw [hnone] at hsome
    cases hsome
  data_isSome := h.data_isSome

def QueueFramed (c : QuicFuscateConnection) : Prop := ∀ p ∈ c.outgoingFecPackets, Framed p

theorem QueueFramed.send (h : c.QueueFramed) (hsend : c.send host input = .ok (out, c')) : c'.QueueFramed := by
  rcases send_cases hsend with ⟨-, -, -, -, rfl⟩ | ⟨p, rest, hqueue, -, rfl, -⟩ |
    ⟨-, bytes, c₁, fresh, repairs, -, -, -, -, -, hrepairs, -, rfl, -⟩
  · exact h
  · intro q hq
    exact h q (by rw [hqueue]; exact List.mem_cons_of_mem p hq)
  · exact fun q hq => framed_of_isRepair (hrepairs q hq)

theorem QueueFramed.step {call : Call} {u : Unit} (h : c.QueueFramed) (hstep : c.step host call = .ok (u, c')) :
    c'.QueueFramed := by
  cases call with
  | send input =>
      rw [QuicFuscateConnection.step, bind_eq_ok] at hstep
      obtain ⟨⟨out, c₁⟩, hsend, hstep⟩ := hstep
      cases hstep
      exact h.send hsend
  | recv input =>
      rw [QuicFuscateConnection.step, bind_eq_ok] at hstep
      obtain ⟨⟨out, c₁⟩, hrecv, hstep⟩ := hstep
      cases hstep
      intro q hq
      exact h q ((recv_keeps hrecv).1 ▸ hq)
  | updateState r xdpSocket =>
      cases hstep
      exact h

theorem QueueFramed.run {calls : List Call} {outs : List Unit} (h : c.QueueFramed)
    (hrun : runAll (QuicFuscateConnection.step host) c calls = .ok (outs, c')) : c'.QueueFramed :=
  runAll_invariant QueueFramed hrun h fun _ _ _ _ hkept hstep => hkept.step hstep

/-! ## The wire format -/

/-- A peer whose blocks are large enough reads the packet back from the datagram. -/
def Readable (datagram : Datagram) : Prop :=
  ∀ (env : Platform) (id : ℕ) (block : List UInt8), datagram.bytes.length ≤ env.blockSize →
    block.length = env.blockSize → block.take datagram.bytes.length = datagram.bytes →
    ∃ q, Packet.fromBlock env id block datagram.bytes.length = .ok (.ok q) ∧ Packet.SameContent datagram.packet q

private theorem readable_of_toRaw {p : Packet} {buffer buf : List UInt8} (hp : Framed p)
    (hraw : p.toRaw buffer = .ok (.ok (buf, p.frameSize))) (hsize : p.frameSize ≤ 65535) :
    Readable ⟨p, buf.take p.frameSize⟩ := by
  rcases Packet.toRaw_cases hraw with ⟨hfail, -⟩ | ⟨hroom, -, hcoeffs, hdata⟩
  · cases hfail
  obtain ⟨d, hd⟩ := Option.isSome_iff_exists.mp hp.data_isSome
  have hbuilt : p.Built := by
    refine ⟨hp.systematic_iff, hp.coeffLen_none, fun coeffs hc => ⟨?_, hcoeffs coeffs hc⟩, d, hd, hdata d hd⟩
    rw [Packet.frameSize, hc] at hsize
    simp only [Option.isSome_some, if_true] at hsize
    omega
  have hframe := Packet.toRaw_ok hbuilt hroom
  rw [hraw] at hframe
  simp only [Except.ok.injEq, Prod.mk.injEq, and_true] at hframe
  have hbytes : buf.take p.frameSize = p.frame := by rw [hframe, List.take_left' hbuilt.frame_length]
  intro env id block hblock hlen hread
  dsimp only at hblock hread ⊢
  rw [hbytes, hbuilt.frame_length] at hblock hread
  rw [hbytes, hbuilt.frame_length, ← List.take_append_drop p.frameSize block, hread]
  obtain ⟨q, hq, -, hsame⟩ := Packet.fromBlock_frame hbuilt hblock id (block.drop p.frameSize)
  exact ⟨q, hq, hsame⟩

private theorem not_readable_payload {p : Packet} {d : List UInt8} (hlen : p.len ≤ d.length) :
    ¬ Readable ⟨p, d.take p.len⟩ := by
  intro h
  have hbytes : (d.take p.len).length = p.len := List.length_take_of_le hlen
  obtain ⟨q, hq, hsame⟩ := h ⟨.scalar, (d.take p.len).length⟩ 0 (d.take p.len) le_rfl rfl (List.take_length)
  obtain ⟨-, hsize, -⟩ := Packet.fromBlock_sound hq
  rw [Packet.frameSize, hsame.len_eq, hbytes] at hsize
  dsimp only at hsize
  omega

private theorem transmit_readable_iff {xdpSocket : Bool} {p : Packet} {len : ℕ} {datagram : Datagram} (hp : Framed p)
    (h : transmit xdpSocket input p = .ok (.ok (len, datagram))) (hsize : datagram.bytes.length ≤ 65535) :
    Readable datagram ↔ xdpSocket = false := by
  rcases transmit_cases h with ⟨-, e, he⟩ | ⟨-, len', bytes, hr, hbytes⟩
  · cases he
  obtain ⟨rfl, rfl⟩ := Prod.mk.inj (Except.ok.inj hr)
  cases xdpSocket with
  | true =>
      rw [if_pos rfl] at hbytes
      obtain ⟨d, -, hlen, rfl⟩ := hbytes
      simp [not_readable_payload hlen]
  | false =>
      rw [if_neg Bool.false_ne_true] at hbytes
      obtain ⟨buf, hraw, hroom, rfl⟩ := hbytes
      rw [List.length_take_of_le hroom] at hsize
      simp [readable_of_toRaw hp hraw hsize]

theorem Transmits.datagram {p : Packet} {rest : List Packet} {datagram : Datagram}
    (h : Transmits c c' input out p rest) (hdatagram : out.datagram = some datagram) :
    ∃ len, transmit c.xdpSocket input p = .ok (.ok (len, datagram)) := by
  obtain ⟨-, r, hr, hout⟩ := h
  cases r with
  | error e =>
      rw [hout.2] at hdatagram
      cases hdatagram
  | ok sent =>
      obtain ⟨len, datagram'⟩ := sent
      rw [hout.2, Option.some.injEq] at hdatagram
      exact ⟨len, hdatagram ▸ hr⟩

theorem QueueFramed.send_datagram {datagram : Datagram} (h : c.QueueFramed)
    (hsend : c.send host input = .ok (out, c')) (hdatagram : out.datagram = some datagram) :
    ∃ p len, Framed p ∧ transmit c.xdpSocket input p = .ok (.ok (len, datagram)) := by
  rcases send_cases hsend with ⟨-, -, hnone, -⟩ | ⟨p, rest, hqueue, -, htrans⟩ |
    ⟨-, bytes, c₁, fresh, repairs, -, -, henqueue, -, hfresh, -, -, htrans⟩
  · rw [hnone] at hdatagram
    cases hdatagram
  · obtain ⟨len, hlen⟩ := htrans.datagram hdatagram
    exact ⟨p, len, h p (by rw [hqueue]; exact List.mem_cons_self), hlen⟩
  · obtain ⟨len, hlen⟩ := htrans.datagram hdatagram
    rw [(enqueue_cases henqueue).2.2] at hlen
    exact ⟨fresh, len, hfresh.framed, hlen⟩

/-- In every state that a connection reaches, the datagram of a call is read back by the peer exactly
when the connection has no XDP socket. -/
theorem sent_readable_iff (host : Host) (fec : AdaptiveFec) (stealthManager : StealthManager) (xdpSocket : Bool)
    {calls : List Call} {outs : List Unit} {c c' : QuicFuscateConnection} {input : SendInput} {out : SendCall}
    {datagram : Datagram}
    (hrun : runAll (QuicFuscateConnection.step host) (new fec stealthManager xdpSocket) calls = .ok (outs, c))
    (hsend : c.send host input = .ok (out, c')) (hdatagram : out.datagram = some datagram)
    (hsize : datagram.bytes.length ≤ 65535) : Readable datagram ↔ c.xdpSocket = false := by
  have hframed : c.QueueFramed := by
    refine QueueFramed.run (c := new fec stealthManager xdpSocket) ?_ hrun
    intro p hp
    cases hp
  obtain ⟨p, len, hp, hlen⟩ := hframed.send_datagram hsend hdatagram
  exact transmit_readable_iff hp hlen hsize

/-- A host with blocks of eight bytes, and a connection on it that does not correct errors. -/
def smallHost : Host :=
  ⟨gf16Arith, ⟨.scalar, 8⟩, fun _ => Vector.replicate 32 0, ⟨false, false, false, false, false, false⟩⟩

def plainConnection (xdpSocket : Bool) : QuicFuscateConnection :=
  new (AdaptiveFec.new .zero ModeManager.defaultTable 0) ⟨false, none⟩ xdpSocket

def firstPacket : Packet := ⟨0, some [7, 9, 0, 0, 0, 0, 0, 0], 2, true, none, 0⟩

theorem sent_readable_iff_buffer : ∃ out c',
    (plainConnection false).send smallHost ⟨List.replicate 8 0, .ok [7, 9], .ok ()⟩ = .ok (out, c') ∧
      out.datagram = some ⟨firstPacket, [1, 7, 9]⟩ ∧ Readable ⟨firstPacket, [1, 7, 9]⟩ := by
  obtain ⟨out, c', hsend, hdatagram⟩ : ∃ out c',
      (plainConnection false).send smallHost ⟨List.replicate 8 0, .ok [7, 9], .ok ()⟩ = .ok (out, c') ∧
        out.datagram = some ⟨firstPacket, [1, 7, 9]⟩ := ⟨_, _, rfl, rfl⟩
  have hrun : runAll (QuicFuscateConnection.step smallHost) (plainConnection false) [] =
    .ok ([], plainConnection false) := rfl
  exact ⟨out, c', hsend, hdatagram, (sent_readable_iff smallHost _ _ false hrun hsend hdatagram (by decide)).mpr rfl⟩

/-- On the XDP socket the same packet leaves without its frame. -/
theorem xdp_datagram_unreadable : ∃ out c',
    (plainConnection true).send smallHost ⟨List.replicate 8 0, .ok [7, 9], .ok ()⟩ = .ok (out, c') ∧
      out.datagram = some ⟨firstPacket, [7, 9]⟩ ∧ ¬ Readable ⟨firstPacket, [7, 9]⟩ :=
  ⟨_, _, rfl, rfl, not_readable_payload (p := firstPacket) (d := [7, 9, 0, 0, 0, 0, 0, 0]) (by decide)⟩

/-! ## Conservation of packets -/

def transmitted (outs : List SendCall) : List Packet := outs.filterMap fun out => out.datagram.map Datagram.packet

def enqueuedBy (outs : List SendCall) : List Packet := (outs.map SendCall.enqueued).flatten

/-- No call of a run loses a packet: after any number of calls, what was in the queue and what was
enqueued has left in order, up to what is still queued, and a call that fails leaves the queue with
its packet at the head. -/
structure NeverLoses (host : Host) (c : QuicFuscateConnection) (inputs : List SendInput) : Prop where
  inOrder : ∀ n outs c', runAll (send host) c (inputs.take n) = .ok (outs, c') →
    c.outgoingFecPackets ++ enqueuedBy outs = transmitted outs ++ c'.outgoingFecPackets
  failed : ∀ n outs c₁, runAll (send host) c (inputs.take n) = .ok (outs, c₁) → ∀ input ∈ inputs[n]?,
    ∀ out c₂ e, c₁.send host input = .ok (out, c₂) → out.result = .error e →
      c₂.outgoingFecPackets = c₁.outgoingFecPackets ++ out.enqueued

/-- The transport takes the packet that the call will transmit, if there is one. -/
def Deliverable (c : QuicFuscateConnection) (input : SendInput) : Prop :=
  match c.outgoingFecPackets, input.library with
  | p :: _, _ => Accepts c.xdpSocket input p.frameSize
  | [], .ok bytes => bytes ≠ [] → Accepts c.xdpSocket input (bytes.length + 1)
  | [], .error _ => True

def AllDeliverable (host : Host) : QuicFuscateConnection → List SendInput → Prop
  | _, [] => True
  | c, input :: inputs => ∀ out c', c.send host input = .ok (out, c') →
      c.Deliverable input ∧ AllDeliverable host c' inputs

theorem Transmits.conserves_iff {p : Packet} {rest : List Packet} (h : Transmits c c' input out p rest) :
    p :: rest = (out.datagram.map Datagram.packet).toList ++ c'.outgoingFecPackets ↔
      Accepts c.xdpSocket input p.frameSize := by
  obtain ⟨rfl, r, hr, hout⟩ := h
  rcases transmit_cases hr with ⟨hfail, e, rfl⟩ | ⟨haccept, len, bytes, rfl, -⟩
  · rw [hout.2]
    simp [hfail]
  · rw [hout.2]
    simp [haccept]

private theorem send_conserves_iff (h : c.send host input = .ok (out, c')) :
    c.outgoingFecPackets ++ out.enqueued = (out.datagram.map Datagram.packet).toList ++ c'.outgoingFecPackets ↔
      c.Deliverable input := by
  rcases send_cases h with ⟨hqueue, hlib, hnone, henq, rfl⟩ | ⟨p, rest, hqueue, henq, htrans⟩ |
    ⟨hqueue, bytes, c₁, fresh, repairs, hlib, hne, henqueue, -, hfresh, -, henq, htrans⟩
  · rw [hnone, henq, Deliverable, hqueue]
    cases hl : input.library with
    | error e => simp
    | ok bytes => simp [hlib bytes hl]
  · rw [henq, List.append_nil, Deliverable, hqueue, htrans.conserves_iff]
  · rw [henq, hqueue, List.nil_append, Deliverable, hqueue, hlib, htrans.conserves_iff, hfresh.frameSize,
      (enqueue_cases henqueue).2.2]
    simp [hne]

private theorem datagram_of_error {e : ConnectionError} (h : c.send host input = .ok (out, c'))
    (he : out.result = .error e) :
    out.datagram = none := by
  have htransmits : ∀ {c₁ : QuicFuscateConnection} {p rest}, Transmits c₁ c' input out p rest →
      out.datagram = none := by
    rintro c₁ p rest ⟨-, r, -, hout⟩
    cases r with
    | error e' => exact hout.2
    | ok sent =>
        rw [hout.1] at he
        cases he
  rcases send_cases h with ⟨-, -, hnone, -⟩ | ⟨p, rest, -, -, htrans⟩ | ⟨-, _, c₁, _, _, -, -, -, -, -, -, -, htrans⟩
  · exact hnone
  · exact htransmits htrans
  · exact htransmits htrans

private theorem transmitted_cons (out : SendCall) (outs : List SendCall) :
    transmitted (out :: outs) = (out.datagram.map Datagram.packet).toList ++ transmitted outs := by
  cases hd : out.datagram <;> simp [transmitted, hd]

private theorem enqueuedBy_cons (out : SendCall) (outs : List SendCall) :
    enqueuedBy (out :: outs) = out.enqueued ++ enqueuedBy outs := rfl

theorem NeverLoses.tail {inputs : List SendInput} (h : NeverLoses host c (input :: inputs))
    (hsend : c.send host input = .ok (out, c')) : c.Deliverable input ∧ NeverLoses host c' inputs := by
  have hstep : c.outgoingFecPackets ++ out.enqueued =
      (out.datagram.map Datagram.packet).toList ++ c'.outgoingFecPackets := by
    have hone := h.inOrder 1 [out] c' (runAll_cons hsend rfl)
    rw [enqueuedBy_cons, transmitted_cons] at hone
    simpa [enqueuedBy, transmitted] using hone
  refine ⟨(send_conserves_iff hsend).mp hstep, ?_, ?_⟩
  · intro n outs c₁ hrun
    have hmore := h.inOrder (n + 1) (out :: outs) c₁ (runAll_cons hsend hrun)
    rw [enqueuedBy_cons, transmitted_cons, ← List.append_assoc, hstep, List.append_assoc, List.append_assoc] at hmore
    exact List.append_cancel_left hmore
  · intro n outs c₁ hrun
    exact h.failed (n + 1) (out :: outs) c₁ (runAll_cons hsend hrun)

private theorem neverLoses_of_allDeliverable {inputs : List SendInput} (h : AllDeliverable host c inputs) :
    NeverLoses host c inputs := by
  induction inputs generalizing c with
  | nil =>
      refine ⟨fun n outs c' hrun => ?_, by simp⟩
      rw [List.take_nil] at hrun
      cases hrun
      simp [enqueuedBy, transmitted]
  | cons input inputs ih =>
      constructor
      · intro n outs c' hrun
        cases n with
        | zero =>
            cases hrun
            simp [enqueuedBy, transmitted]
        | succ n =>
            obtain ⟨out, c₁, outs', hsend, hrest, rfl⟩ := runAll_cons_eq_ok.mp hrun
            obtain ⟨hdeliverable, hall⟩ := h out c₁ hsend
            have hstep := (send_conserves_iff hsend).mpr hdeliverable
            have htail := (ih hall).inOrder n outs' c' hrest
            rw [enqueuedBy_cons, transmitted_cons, ← List.append_assoc, hstep, List.append_assoc, htail,
              List.append_assoc]
      · intro n outs c₁ hrun
        cases n with
        | zero =>
            cases hrun
            rintro _ ⟨rfl⟩ out c₂ e hsend he
            have hstep := (send_conserves_iff hsend).mpr (h out c₂ hsend).1
            rw [datagram_of_error hsend he] at hstep
            exact hstep.symm
        | succ n =>
            obtain ⟨out, c₀, outs', hsend, hrest, rfl⟩ := runAll_cons_eq_ok.mp hrun
            exact (ih (h out c₀ hsend).2).failed n outs' c₁ hrest

/-- A run of calls loses no packet exactly when every call that has one finds a transport that takes
it. -/
theorem neverLoses_iff (host : Host) (c : QuicFuscateConnection) (inputs : List SendInput) :
    NeverLoses host c inputs ↔ AllDeliverable host c inputs := by
  refine ⟨fun h => ?_, neverLoses_of_allDeliverable⟩
  induction inputs generalizing c with
  | nil => trivial
  | cons input inputs ih =>
      intro out c' hsend
      obtain ⟨hdeliverable, htail⟩ := h.tail hsend
      exact ⟨hdeliverable, ih c' htail⟩

/-- A buffer that is too short for the frame of three bytes loses the packet. -/
theorem short_buffer_loses_packet : ¬ NeverLoses smallHost (plainConnection false) [⟨[0, 0], .ok [7, 9], .ok ()⟩] ∧
    ∃ out c', (plainConnection false).send smallHost ⟨[0, 0], .ok [7, 9], .ok ()⟩ = .ok (out, c') ∧
      out.result = .error (.quiche (.framing .bufferTooShort)) ∧ out.enqueued = [firstPacket] ∧
      out.datagram = none ∧ c'.outgoingFecPackets = [] := by
  obtain ⟨out, c', hsend, hresult, henqueued, hdatagram, hqueue⟩ : ∃ out c',
      (plainConnection false).send smallHost ⟨[0, 0], .ok [7, 9], .ok ()⟩ = .ok (out, c') ∧
      out.result = .error (.quiche (.framing .bufferTooShort)) ∧ out.enqueued = [firstPacket] ∧
      out.datagram = none ∧ c'.outgoingFecPackets = [] := ⟨_, _, rfl, rfl, rfl, rfl, rfl⟩
  refine ⟨fun h => ?_, out, c', hsend, hresult, henqueued, hdatagram, hqueue⟩
  have hkept := h.failed 0 [] _ rfl _ rfl out c' _ hsend hresult
  rw [hqueue, henqueued] at hkept
  cases hkept

end QuicFuscateConnection

end QuicFuscate.Core
