import QuicFuscate.Core.Proofs.Connection
import QuicFuscate.Fec.Proofs.WholeBlocks

/-!
# What the library is given

`recv` hands the data of every packet that the decoder returns to the QUIC library, without a look
at the length of the packet.  The data is a whole block of the pool, so that the library never gets
the packet that its peer sent.
-/

namespace QuicFuscate.Core

open Framework Fec Stealth

namespace QuicFuscateConnection

variable {host : Host} {c c' : QuicFuscateConnection}

/-- Obfuscation is off, and the decoders hold whole blocks. -/
structure Plain (host : Host) (c : QuicFuscateConnection) : Prop where
  whole : c.fec.Whole host.platform.blockSize
  off : c.stealthManager.enableXorObfuscation = false

/-! ## Receiving -/

private theorem readBlock_length {input : RecvInput} {block : List UInt8} {len : ℕ}
    (h : c.readBlock host input = .ok (.ok (block, len))) : block.length = host.platform.blockSize := by
  unfold readBlock at h
  split at h
  · split at h
    · rw [bind_eq_ok] at h
      obtain ⟨filled, hfilled, h⟩ := h
      cases h
      rw [copyFront_length hfilled, Platform.alloc_length]
    · cases h
  · simp only [bind_eq_ok] at h
    obtain ⟨front, -, filled, hfilled, h⟩ := h
    cases h
    rw [copyFront_length hfilled, Platform.alloc_length]

private theorem processIncomingPacket_off {sha256 : Sha256} {cpu : CpuFeatures} {m : StealthManager}
    (payload : List UInt8)
    (h : m.enableXorObfuscation = false) : m.processIncomingPacket sha256 cpu payload = .ok (payload, m) := by
  unfold StealthManager.processIncomingPacket
  rw [h]
  rfl

private theorem processOutgoingPacket_off {sha256 : Sha256} {cpu : CpuFeatures} {m : StealthManager}
    (payload : List UInt8)
    (h : m.enableXorObfuscation = false) : m.processOutgoingPacket sha256 cpu payload = .ok (payload, m) := by
  unfold StealthManager.processOutgoingPacket
  rw [h]
  rfl

private theorem deliver_off {m : StealthManager} (h : m.enableXorObfuscation = false) (packets : List Packet) :
    deliver host m packets = .ok (packets.filterMap Packet.data, m) := by
  induction packets with
  | nil => rfl
  | cons packet packets ih =>
      cases hdata : packet.data with
      | none =>
          rw [deliver, hdata, List.filterMap_cons, hdata]
          exact ih
      | some data =>
          rw [deliver, hdata, List.filterMap_cons, hdata]
          dsimp only
          rw [processIncomingPacket_off data h, ok_bind]
          dsimp only
          rw [ih, ok_bind]
          rfl

theorem Plain.recv (h : Plain host c) {input : RecvInput} {out : RecvCall}
    (hrecv : c.recv host input = .ok (out, c')) :
    (∀ data ∈ out.delivered, data.length = host.platform.blockSize) ∧ Plain host c' := by
  rcases recv_cases hrecv with ⟨hnone, rfl⟩ | ⟨block, len, packet, recovered, fec, hblock, hpacket, hrec, hend⟩
  · exact ⟨by simp [hnone], h⟩
  · have hpkt : packet.IsWhole host.platform.blockSize := by
      obtain ⟨-, -, -, d, hd, hlen⟩ := Packet.fromBlock_sound hpacket
      intro data hdata
      rw [hd] at hdata
      cases hdata
      rw [hlen, readBlock_length hblock]
    obtain ⟨hresult, hfec⟩ := h.whole.onReceive hpkt hrec
    rcases hend with ⟨hnone, rfl⟩ | ⟨packets, m, rfl, hdeliver, rfl⟩
    · exact ⟨by simp [hnone], hfec, h.off⟩
    · rw [deliver_off h.off] at hdeliver
      obtain ⟨hdata, rfl⟩ := Prod.mk.inj (Except.ok.inj hdeliver)
      refine ⟨?_, hfec, h.off⟩
      intro data hmem
      rw [← hdata] at hmem
      obtain ⟨p, hp, hpdata⟩ := List.mem_filterMap.mp hmem
      exact hresult packets rfl p hp data hpdata

/-! ## Runs -/

theorem Plain.enqueue (h : Plain host c) {bytes : List UInt8} (hrun : c.enqueue host bytes = .ok c') :
    Plain host c' := by
  simp only [QuicFuscateConnection.enqueue, bind_eq_ok] at hrun
  obtain ⟨block, -, ⟨payload, m⟩, hpayload, buffer, -, ⟨queue, fec⟩, hsend, hrun⟩ := hrun
  rw [processOutgoingPacket_off bytes h.off] at hpayload
  cases hpayload
  cases hrun
  exact ⟨h.whole.onSend hsend, h.off⟩

theorem Plain.send (h : Plain host c) {input : SendInput} {out : SendCall}
    (hsend : c.send host input = .ok (out, c')) : Plain host c' := by
  rcases send_cases hsend with ⟨-, -, -, -, rfl⟩ | ⟨p, rest, -, -, htrans⟩ |
    ⟨-, bytes, c₁, fresh, repairs, -, -, henqueue, -, -, -, -, htrans⟩
  · exact h
  · rw [htrans.1]
    exact ⟨h.whole, h.off⟩
  · have hnext := h.enqueue henqueue
    rw [htrans.1]
    exact ⟨hnext.whole, hnext.off⟩

theorem Plain.step (h : Plain host c) {call : Call} {out : Unit} (hstep : c.step host call = .ok (out, c')) :
    Plain host c' := by
  cases call with
  | send input =>
      rw [QuicFuscateConnection.step, bind_eq_ok] at hstep
      obtain ⟨⟨sent, next⟩, hsend, hstep⟩ := hstep
      cases hstep
      exact h.send hsend
  | recv input =>
      rw [QuicFuscateConnection.step, bind_eq_ok] at hstep
      obtain ⟨⟨received, next⟩, hrecv, hstep⟩ := hstep
      cases hstep
      exact (h.recv hrecv).2
  | updateState r xdpSocket =>
      cases hstep
      exact ⟨h.whole.reportLoss r, h.off⟩

theorem Plain.run (h : Plain host c) {calls : List Call} {outs : List Unit}
    (hrun : runAll (QuicFuscateConnection.step host) c calls = .ok (outs, c')) : Plain host c' :=
  runAll_invariant (Plain host) hrun h fun _ _ _ _ hkept hstep => hkept.step hstep

/-- With obfuscation off, in every state that a connection reaches, what a call of `recv` hands to the
library is a whole block, and no packet that is shorter than a block. -/
theorem recv_hands_over_blocks (host : Host) (initialMode : FecMode) (windowSizes : FecMode → Option ℕ) (now : ℕ)
    (stealthManager : StealthManager) (hoff : stealthManager.enableXorObfuscation = false) (xdpSocket : Bool)
    {calls : List Call} {outs : List Unit} {input : RecvInput} {out : RecvCall}
    (hrun : runAll (QuicFuscateConnection.step host)
      (new (AdaptiveFec.new initialMode windowSizes now) stealthManager xdpSocket) calls = .ok (outs, c))
    (hrecv : c.recv host input = .ok (out, c')) :
    ∀ data ∈ out.delivered, data.length = host.platform.blockSize ∧
      ∀ original : List UInt8, original.length < host.platform.blockSize → data ≠ original := by
  have hstart : Plain host (new (AdaptiveFec.new initialMode windowSizes now) stealthManager xdpSocket) :=
    ⟨AdaptiveFec.whole_new _ initialMode windowSizes now, hoff⟩
  intro data hdata
  have hlen := ((hstart.run hrun).recv hrecv).1 data hdata
  refine ⟨hlen, ?_⟩
  rintro original hshort rfl
  omega

def singleConnection : QuicFuscateConnection :=
  new (AdaptiveFec.new .light (fun _ => some 1) 0) ⟨false, none⟩ false

theorem recv_hands_over_blocks_first_frame : ∃ out c',
    singleConnection.recv smallHost ⟨[1, 7, 9], .error ""⟩ = .ok (out, c') ∧ out.delivered ≠ [] ∧
      ∀ data ∈ out.delivered, data ≠ [7, 9] := by
  obtain ⟨⟨out, c'⟩, hrecv, hsome⟩ := exists_ok_of_any
    (x := singleConnection.recv smallHost ⟨[1, 7, 9], .error ""⟩) (p := fun r => !r.1.delivered.isEmpty)
    (by decide +kernel)
  have hrun : runAll (QuicFuscateConnection.step smallHost) singleConnection [] = .ok ([], singleConnection) := rfl
  refine ⟨out, c', hrecv, by simpa using hsome, fun data hdata => ?_⟩
  exact (recv_hands_over_blocks smallHost .light (fun _ => some 1) 0 ⟨false, none⟩ rfl false hrun hrecv data hdata).2
    [7, 9] (by decide)

/-- The packet `7 9` arrives with a stale byte of its frame and the rest of the block behind it. -/
theorem recv_hands_over_stale_bytes : ∃ sent c₁ received c₂,
    singleConnection.send smallHost ⟨List.replicate 8 0, .ok [7, 9], .ok ()⟩ = .ok (sent, c₁) ∧
      sent.datagram.map Datagram.bytes = some [1, 7, 9] ∧
      singleConnection.recv smallHost ⟨[1, 7, 9], .error ""⟩ = .ok (received, c₂) ∧
      received.delivered = [[7, 9, 9, 0, 0, 0, 0, 0]] ∧ received.delivered ≠ [[7, 9]] := by
  obtain ⟨⟨sent, c₁⟩, hsend, hsent⟩ := exists_ok_of_any
    (x := singleConnection.send smallHost ⟨List.replicate 8 0, .ok [7, 9], .ok ()⟩)
    (p := fun r => decide (r.1.datagram.map Datagram.bytes = some [1, 7, 9])) (by decide +kernel)
  obtain ⟨⟨received, c₂⟩, hrecv, hreceived⟩ := exists_ok_of_any
    (x := singleConnection.recv smallHost ⟨[1, 7, 9], .error ""⟩)
    (p := fun r => decide (r.1.delivered = [[7, 9, 9, 0, 0, 0, 0, 0]])) (by decide +kernel)
  have hdelivered : received.delivered = [[7, 9, 9, 0, 0, 0, 0, 0]] := of_decide_eq_true hreceived
  refine ⟨sent, c₁, received, c₂, hsend, of_decide_eq_true hsent, hrecv, hdelivered, ?_⟩
  rw [hdelivered]
  decide

end QuicFuscateConnection

end QuicFuscate.Core
