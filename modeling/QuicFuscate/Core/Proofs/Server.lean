import QuicFuscate.Core.Proofs.Connection
import QuicFuscate.Core.Server

/-!
# Clients of one server

A client sees the server as if it were the only one: its connection and the datagrams to it are
those of a server with this client alone, run on its own datagrams.  Other clients matter only for which
iterations get as far as serving it.  The frames that the buffer receives overwrite what other clients left there.
-/

namespace QuicFuscate.Core

open Framework Fec Stealth QuicFuscateConnection

variable {host : Host} {cfg : ServerConfig} {c c' : QuicFuscateConnection} {out out' : List UInt8}

/-! ## The buffer -/

private theorem transmit_frame {input : SendInput} {p : Packet} {r : Except ConnectionError (ℕ × Datagram)}
    (hp : Framed p) (hbuf : input.buf.length ≤ 65535) (h : transmit false input p = .ok r) :
    (p.frameSize ≤ input.buf.length ∧ p.Built ∧ r = .ok (p.frameSize, ⟨p, p.frame⟩)) ∨
      (input.buf.length < p.frameSize ∧ r = .error (.quiche (.framing .bufferTooShort))) := by
  rw [transmit, if_neg Bool.false_ne_true, bind_eq_ok] at h
  obtain ⟨raw, hraw, h⟩ := h
  rcases Packet.toRaw_cases hraw with ⟨rfl, hshort⟩ | ⟨hroom, -, hcoeffs, hdata⟩
  · exact .inr ⟨hshort, (Except.ok.inj h).symm⟩
  obtain ⟨d, hd⟩ := Option.isSome_iff_exists.mp hp.data_isSome
  have hbuilt : p.Built := by
    refine ⟨hp.systematic_iff, hp.coeffLen_none, fun coeffs hc => ⟨?_, hcoeffs coeffs hc⟩, d, hd, hdata d hd⟩
    rw [Packet.frameSize, hc] at hroom
    simp only [Option.isSome_some, if_true] at hroom
    omega
  rw [Packet.toRaw_ok hbuilt hroom, Except.ok.injEq] at hraw
  subst hraw
  refine .inl ⟨hroom, hbuilt, ?_⟩
  rw [← Except.ok.inj h, List.take_left' hbuilt.frame_length]

private theorem transmit_of_built {input : SendInput} {p : Packet} (hp : p.Built)
    (hroom : p.frameSize ≤ input.buf.length) :
    transmit false input p = .ok (.ok (p.frameSize, ⟨p, p.frame⟩)) := by
  rw [transmit, if_neg Bool.false_ne_true, Packet.toRaw_ok hp hroom]
  simp only [ok_bind, pure_eq_ok, List.take_left' hp.frame_length]

private theorem transmit_of_short {input : SendInput} {p : Packet} (hshort : input.buf.length < p.frameSize) :
    transmit false input p = .ok (.error (.quiche (.framing .bufferTooShort))) := by
  rw [transmit, if_neg Bool.false_ne_true]
  have hraw : p.toRaw input.buf = .ok (.error .bufferTooShort) := by
    rw [Packet.toRaw]
    exact if_pos hshort
  rw [hraw]
  rfl

private theorem transmit_buffer {library : Except LibraryError (List UInt8)} {xdp : Except String Unit} {p : Packet}
    {r : Except ConnectionError (ℕ × Datagram)} (hp : Framed p) (hbuf : out.length ≤ 65535)
    (hout : out'.length = out.length)
    (h : transmit false ⟨out, library, xdp⟩ p = .ok r) : transmit false ⟨out', library, xdp⟩ p = .ok r := by
  rcases transmit_frame hp hbuf h with ⟨hroom, hbuilt, rfl⟩ | ⟨hshort, rfl⟩
  · exact transmit_of_built hbuilt (hout ▸ hroom)
  · exact transmit_of_short (hout ▸ hshort)

private theorem sendQueued_buffer {library : Except LibraryError (List UInt8)} {xdp : Except String Unit}
    {enqueued : List Packet} {call : SendCall} (hframed : c.QueueFramed) (hxdp : c.xdpSocket = false)
    (hbuf : out.length ≤ 65535) (hout : out'.length = out.length)
    (h : c.sendQueued ⟨out, library, xdp⟩ enqueued = .ok (call, c')) :
    c.sendQueued ⟨out', library, xdp⟩ enqueued = .ok (call, c') := by
  rw [sendQueued] at h ⊢
  cases hqueue : c.outgoingFecPackets with
  | nil =>
      rw [hqueue] at h
      exact h
  | cons p rest =>
      rw [hqueue] at h
      dsimp only at h ⊢
      rw [bind_eq_ok] at h
      obtain ⟨r, hr, h⟩ := h
      have hp : Framed p := hframed p (by rw [hqueue]; exact List.mem_cons_self)
      have hr' : transmit c.xdpSocket ⟨out', library, xdp⟩ p = .ok r := by
        rw [hxdp] at hr ⊢
        exact transmit_buffer hp hbuf hout hr
      rw [hr', ok_bind]
      exact h

theorem QueueFramed.enqueue {bytes : List UInt8} (hempty : c.outgoingFecPackets = [])
    (h : c.enqueue host bytes = .ok c') : c'.QueueFramed := by
  obtain ⟨⟨fresh, repairs, hqueue, hfresh, hrepairs⟩, -⟩ := enqueue_cases h
  intro p hp
  rw [hqueue, hempty, List.nil_append] at hp
  rcases List.mem_cons.mp hp with rfl | hp
  · exact hfresh.framed
  · exact framed_of_isRepair (hrepairs p hp)

private theorem send_buffer {library : Except LibraryError (List UInt8)} {xdp : Except String Unit} {call : SendCall}
    (hframed : c.QueueFramed) (hxdp : c.xdpSocket = false) (hbuf : out.length ≤ 65535) (hout : out'.length = out.length)
    (h : c.send host ⟨out, library, xdp⟩ = .ok (call, c')) : c.send host ⟨out', library, xdp⟩ = .ok (call, c') := by
  rw [send] at h ⊢
  cases hqueue : c.outgoingFecPackets with
  | cons p rest =>
      rw [hqueue] at h
      exact sendQueued_buffer hframed hxdp hbuf hout h
  | nil =>
      rw [hqueue] at h
      dsimp only at h ⊢
      cases library with
      | error e => exact h
      | ok bytes =>
          dsimp only at h ⊢
          split at h
          · rename_i hempty
            rw [if_pos hempty]
            exact h
          · rename_i hsome
            rw [if_neg hsome]
            rw [bind_eq_ok] at h
            obtain ⟨c₁, henqueue, h⟩ := h
            rw [henqueue, ok_bind]
            have hxdp₁ : c₁.xdpSocket = false := (enqueue_cases henqueue).2.2.trans hxdp
            exact sendQueued_buffer (QueueFramed.enqueue hqueue henqueue) hxdp₁ hbuf hout h

/-- What a call without an XDP socket did: it sent nothing, or the frame that it reports the length of. -/
private theorem send_frame {library : Except LibraryError (List UInt8)} {xdp : Except String Unit} {call : SendCall}
    (hframed : c.QueueFramed) (hxdp : c.xdpSocket = false) (hbuf : out.length ≤ 65535)
    (h : c.send host ⟨out, library, xdp⟩ = .ok (call, c')) :
    c'.QueueFramed ∧ c'.xdpSocket = false ∧
      ((call.datagram = none ∧ ∀ len, call.result = .ok len → len = 0) ∨
        ∃ p, p.Built ∧ p.frameSize ≤ out.length ∧ call.datagram = some ⟨p, p.frame⟩ ∧
          call.result = .ok p.frameSize) := by
  have hqueue' : c'.QueueFramed := hframed.send h
  -- The packet at the head of a framed queue, transmitted.
  have htransmits : ∀ {c₁ : QuicFuscateConnection} {p : Packet} {rest : List Packet}, c₁.xdpSocket = false → Framed p →
      Transmits c₁ c' ⟨out, library, xdp⟩ call p rest → c'.xdpSocket = false ∧
        ((call.datagram = none ∧ ∀ len, call.result = .ok len → len = 0) ∨
          ∃ p, p.Built ∧ p.frameSize ≤ out.length ∧ call.datagram = some ⟨p, p.frame⟩ ∧
            call.result = .ok p.frameSize) := by
    intro c₁ p rest hxdp₁ hp htrans
    obtain ⟨rfl, r, hr, hcall⟩ := htrans
    rw [hxdp₁] at hr
    refine ⟨hxdp₁, ?_⟩
    rcases transmit_frame hp hbuf hr with ⟨hroom, hbuilt, rfl⟩ | ⟨-, rfl⟩
    · exact .inr ⟨p, hbuilt, hroom, hcall.2, hcall.1⟩
    · refine .inl ⟨hcall.2, fun len hlen => ?_⟩
      rw [hcall.1] at hlen
      cases hlen
  rcases send_cases h with ⟨hempty, hlibrary, hnone, -, rfl⟩ | ⟨p, rest, hqueue, -, htrans⟩ |
    ⟨-, bytes, c₁, fresh, repairs, -, -, henqueue, hqueue, hfresh, -, -, htrans⟩
  · refine ⟨hqueue', hxdp, .inl ⟨hnone, fun len hlen => ?_⟩⟩
    rw [send, hempty] at h
    dsimp only at h
    cases library with
    | error e =>
        cases h
        cases hlen
    | ok bytes =>
        rw [hlibrary bytes rfl] at h
        cases h
        cases hlen
        rfl
  · exact ⟨hqueue', htransmits hxdp (hframed p (by rw [hqueue]; exact List.mem_cons_self)) htrans⟩
  · exact ⟨hqueue', htransmits ((enqueue_cases henqueue).2.2.trans hxdp) hfresh.framed htrans⟩

/-! ## Serving -/

theorem SendCall.buffer_frame {call : SendCall} {p : Packet} (out : List UInt8) (hbuilt : p.Built)
    (hroom : p.frameSize ≤ out.length)
    (h : call.datagram = some ⟨p, p.frame⟩) :
    (call.buffer false out).length = out.length ∧ sliceOf (call.buffer false out) 0 p.frameSize = .ok p.frame := by
  have hbuffer : call.buffer false out = p.frame ++ out.drop p.frameSize := by
    unfold buffer
    rw [h]
    dsimp only
    rw [hbuilt.frame_length]
  have hlength : (call.buffer false out).length = out.length := by
    rw [hbuffer, List.length_append, List.length_drop, hbuilt.frame_length]
    omega
  refine ⟨hlength, ?_⟩
  rw [sliceOf_of_le (Nat.zero_le _) (hlength ▸ hroom), hbuffer, List.take_left' hbuilt.frame_length, List.drop_zero]

theorem SendCall.buffer_none {call : SendCall} (h : call.datagram = none) : call.buffer false out = out := by
  unfold buffer
  rw [h]

/-- A connection between two calls of a program that never gave it an XDP socket. -/
structure NoSocket (c : QuicFuscateConnection) : Prop where
  framed : c.QueueFramed
  xdp : c.xdpSocket = false

private theorem sendLoop_buffer {answers : List Answer} {datagrams : List (List UInt8)} {end_ : List UInt8}
    (hc : NoSocket c) (hbuf : out.length ≤ 65535) (hout : out'.length = out.length)
    (h : sendLoop host c out answers = .ok (datagrams, c', end_)) :
    NoSocket c' ∧ end_.length = out.length ∧ ∃ end', sendLoop host c out' answers = .ok (datagrams, c', end') := by
  induction answers generalizing c out out' datagrams with
  | nil => cases h
  | cons answer answers ih =>
      rw [sendLoop, bind_eq_ok] at h
      obtain ⟨⟨call, c₁⟩, hsend, h⟩ := h
      have hsend' := send_buffer hc.framed hc.xdp hbuf hout hsend
      obtain ⟨hframed₁, hxdp₁, hcall⟩ := send_frame hc.framed hc.xdp hbuf hsend
      rw [sendLoop, hsend', ok_bind]
      dsimp only at h ⊢
      rw [hc.xdp] at h ⊢
      cases hresult : call.result with
      | error e =>
          rw [hresult] at h
          cases h
          rcases hcall with ⟨hnone, -⟩ | ⟨p, -, -, -, hok⟩
          · rw [SendCall.buffer_none hnone]
            exact ⟨⟨hframed₁, hxdp₁⟩, rfl, _, rfl⟩
          · rw [hresult] at hok
            cases hok
      | ok len =>
          rw [hresult] at h
          dsimp only at h ⊢
          rcases hcall with ⟨hnone, hzero⟩ | ⟨p, hbuilt, hroom, hdatagram, hok⟩
          · rw [if_pos (hzero len hresult)] at h ⊢
            rw [SendCall.buffer_none hnone] at h
            cases h
            exact ⟨⟨hframed₁, hxdp₁⟩, rfl, _, rfl⟩
          · rw [hresult, Except.ok.injEq] at hok
            subst hok
            have hpos : ¬ p.frameSize = 0 := by
              rw [Packet.frameSize]
              omega
            obtain ⟨hlength, hslice⟩ := SendCall.buffer_frame out hbuilt hroom hdatagram
            obtain ⟨hlength', hslice'⟩ := SendCall.buffer_frame out' hbuilt (hout ▸ hroom) hdatagram
            rw [if_neg hpos, hslice, ok_bind, bind_eq_ok] at h
            obtain ⟨⟨rest, c₂, out₂⟩, hloop, h⟩ := h
            cases h
            obtain ⟨hc₂, hend, end', hloop'⟩ := ih ⟨hframed₁, hxdp₁⟩ (hlength ▸ hbuf)
              (hlength'.trans (hout.trans hlength.symm)) hloop
            rw [if_neg hpos, hslice', ok_bind, hloop', ok_bind]
            exact ⟨hc₂, hend.trans hlength, end', rfl⟩

private theorem serve_buffer {service : Service} {datagrams : List (List UInt8)} {end_ : List UInt8} (hc : NoSocket c)
    (hbuf : out.length ≤ 65535) (hout : out'.length = out.length)
    (h : serve host service false c out = .ok (datagrams, c', end_)) :
    NoSocket c' ∧ end_.length = out.length ∧ ∃ end', serve host service false c out' = .ok (datagrams, c', end') := by
  rw [serve, bind_eq_ok] at h
  obtain ⟨⟨datagrams', c₁, out₁⟩, hloop, h⟩ := h
  cases h
  obtain ⟨hc₁, hend, end', hloop'⟩ := sendLoop_buffer hc hbuf hout hloop
  refine ⟨⟨hc₁.framed, rfl⟩, hend, end', ?_⟩
  rw [serve, hloop', ok_bind]
  rfl

/-! ## The table -/

structure Server.Sound (s : Server) : Prop where
  keys : UniqueKeys s.clients
  out_length : s.out.length = 1460
  clients : ∀ e ∈ s.clients, NoSocket e.2

private theorem connectionFor_noSocket {known : Option QuicFuscateConnection} {a : Acceptance}
    (hknown : ∀ c ∈ known, NoSocket c) (h : connectionFor cfg known a = .ok c) : NoSocket c := by
  cases known with
  | some c₀ =>
      cases h
      exact hknown c rfl
  | none =>
      cases haccept : a.accept with
      | error e =>
          rw [connectionFor, newServer, haccept] at h
          cases h
      | ok u =>
          rw [connectionFor, newServer, haccept] at h
          cases h
          exact ⟨fun p hp => absurd hp List.not_mem_nil, rfl⟩

theorem NoSocket.recv {input : RecvInput} {call : RecvCall} (hc : NoSocket c) (h : c.recv host input = .ok (call, c')) :
    NoSocket c' := by
  obtain ⟨hqueue, -, hxdp⟩ := recv_keeps h
  exact ⟨fun p hp => hc.framed p (hqueue ▸ hp), hxdp.trans hc.xdp⟩

namespace Server

variable {s s' : Server} {it : Iteration} {pass : Pass}

private theorem sound_start : start.Sound where
  keys := List.nodup_nil
  out_length := List.length_replicate
  clients := fun _ he => absurd he List.not_mem_nil

theorem Sound.lookup (h : s.Sound) {addr : SocketAddr} : ∀ c ∈ s.clients.lookup addr, NoSocket c := by
  intro c hc
  exact h.clients (addr, c) (h.keys.lookup_eq_some_iff.mp hc)

theorem Sound.put (h : s.Sound) (addr : SocketAddr) (hc : NoSocket c) :
    Sound { s with clients := Framework.put s.clients addr c } where
  keys := h.keys.put addr c
  out_length := h.out_length
  clients := by
    rintro ⟨addr', c'⟩ he
    have hfound := (h.keys.put addr c).lookup_eq_some_iff.mpr he
    by_cases heq : addr' = addr
    · subst heq
      rw [lookup_put_self, Option.some.injEq] at hfound
      exact hfound ▸ hc
    · rw [lookup_put_ne _ _ heq] at hfound
      exact h.lookup c' hfound

theorem Sound.serveAll (h : s.Sound) {delivered : List (List UInt8)}
    (hrun : s.serveAll host it delivered = .ok (pass, s')) :
    s'.Sound ∧ pass.delivered = delivered ∧ pass.served = true ∧ ∀ addr,
      (s.clients.lookup addr = none ∧ pass.sent.lookup addr = none ∧ s'.clients.lookup addr = none) ∨
        ∃ c sent c₁ end', s.clients.lookup addr = some c ∧
          serve host (it.service addr) false c (List.replicate 1460 0) = .ok (sent, c₁, end') ∧
          pass.sent.lookup addr = some sent ∧
          s'.clients.lookup addr = if (it.service addr).closed then none else some c₁ := by
  rw [Server.serveAll, bind_eq_ok] at hrun
  obtain ⟨⟨sent, clients, out⟩, hvisit, hrun⟩ := hrun
  cases hrun
  have hperm := it.order_perm s.clients
  have hkeys : UniqueKeys (it.order s.clients) := (hperm.map Prod.fst).nodup_iff.mpr h.keys
  have hvisited : UniqueKeys clients := by
    rw [UniqueKeys, visit_keys hvisit]
    exact hkeys
  have hsocket : ∀ e ∈ it.order s.clients, NoSocket e.2 := fun e he => h.clients e (hperm.mem_iff.mp he)
  -- The buffer keeps its size.
  have hstep : ∀ e ∈ it.order s.clients, ∀ (o : List UInt8) b c₁ o', o.length = 1460 →
      serve host (it.service e.1) false e.2 o = .ok (b, c₁, o') → o'.length = 1460 := by
    intro e he o b c₁ o' ho hserve
    exact (serve_buffer (hsocket e he) (by omega) rfl hserve).2.1.trans ho
  have hone : ∀ addr, (s.clients.lookup addr = none ∧ sent.lookup addr = none ∧ clients.lookup addr = none) ∨
      ∃ c b c₁ end', s.clients.lookup addr = some c ∧ NoSocket c₁ ∧
        serve host (it.service addr) false c (List.replicate 1460 0) = .ok (b, c₁, end') ∧
        sent.lookup addr = some b ∧ clients.lookup addr = some c₁ := by
    intro addr
    rw [← h.keys.lookup_perm hperm addr]
    rcases visit_lookup (fun o => o.length = 1460) hstep h.out_length hvisit addr with hnone |
      ⟨c, o, b, c₁, o', hfound, ho, hserve, hb, hc₁⟩
    · exact .inl hnone
    · have hmem := hkeys.lookup_eq_some_iff.mp hfound
      have hsize : (List.replicate 1460 (0 : UInt8)).length = o.length := by rw [List.length_replicate, ho]
      obtain ⟨hsound, -, end', hserve'⟩ := serve_buffer (hsocket _ hmem) (by omega) hsize hserve
      exact .inr ⟨c, b, c₁, end', hfound, hsound, hserve', hb, hc₁⟩
  refine ⟨⟨hvisited.filter _, visit_invariant (fun o => o.length = 1460) hstep h.out_length hvisit, ?_⟩, rfl, rfl, ?_⟩
  · rintro ⟨addr, c₁⟩ he
    have hfound := hvisited.lookup_eq_some_iff.mpr (List.mem_filter.mp he).1
    rcases hone addr with ⟨-, -, hnone⟩ | ⟨c, b, c₂, end', -, hsound, -, -, hc₂⟩
    · rw [hfound] at hnone
      cases hnone
    · rw [hfound, Option.some.injEq] at hc₂
      exact hc₂ ▸ hsound
  · intro addr
    rw [lookup_filter clients (fun addr => !(it.service addr).closed)]
    rcases hone addr with ⟨hnone, hsent, hgone⟩ | ⟨c, b, c₁, end', hfound, -, hserve, hb, hc₁⟩
    · exact .inl ⟨hnone, hsent, by rw [hgone, ite_self]⟩
    · refine .inr ⟨c, b, c₁, end', hfound, hserve, hb, ?_⟩
      rw [hc₁]
      cases (it.service addr).closed <;> rfl

/-- A pass over the table is a turn of every address, after it has received what it has. -/
theorem Sound.serveAll_turn (h : s.Sound) {delivered : List (List UInt8)}
    (hrun : s.serveAll host it delivered = .ok (pass, s')) {addr : SocketAddr} {known : Option QuicFuscateConnection}
    {received : Option Receipt} {brought : List (List UInt8)}
    (hreceive : receiveTurn host cfg known received = .ok (brought, s.clients.lookup addr)) :
    turn host cfg known ⟨received, some (it.service addr)⟩ =
      .ok (⟨brought, (pass.sent.lookup addr).getD []⟩, s'.clients.lookup addr) := by
  rw [turn, hreceive, ok_bind]
  dsimp only
  rcases (h.serveAll hrun).2.2.2 addr with ⟨hnone, hsent, hgone⟩ | ⟨c, sent, c₁, end', hfound, hserve, hsent, hkept⟩
  · rw [hnone, hsent, hgone]
    rfl
  · rw [hfound, hsent, hkept]
    dsimp only
    rw [hserve]
    rfl

theorem Sound.step (h : s.Sound) (hstep : s.step host cfg it = .ok (pass, s')) :
    s'.Sound ∧ ∀ addr, turn host cfg (s.clients.lookup addr) (it.turnOf pass addr) =
      .ok (it.outputOf pass addr, s'.clients.lookup addr) := by
  rw [Server.step] at hstep
  cases hreceived : it.received with
  | none =>
      rw [hreceived] at hstep
      obtain ⟨hsound, -, hserved, -⟩ := h.serveAll hstep
      refine ⟨hsound, fun addr => ?_⟩
      have hreceive : receiveTurn host cfg (s.clients.lookup addr) none = .ok ([], s.clients.lookup addr) := rfl
      have hturn := h.serveAll_turn hstep hreceive
      rw [Iteration.turnOf, Iteration.outputOf, hreceived, hserved, if_pos rfl]
      exact hturn
  | some r =>
      rw [hreceived] at hstep
      dsimp only at hstep
      rw [bind_eq_ok] at hstep
      obtain ⟨c, hc, hstep⟩ := hstep
      rw [bind_eq_ok] at hstep
      obtain ⟨⟨call, c₁⟩, hrecv, hstep⟩ := hstep
      dsimp only at hstep
      have hput : Sound { s with clients := Framework.put s.clients r.source c₁ } :=
        h.put r.source ((connectionFor_noSocket h.lookup hc).recv hrecv)
      -- The datagram reaches its own address and no other.
      have hreceive : ∀ addr, receiveTurn host cfg (s.clients.lookup addr) ((some r).filter fun r => r.source = addr) =
          .ok (if r.source = addr then call.delivered else [], (Framework.put s.clients r.source c₁).lookup addr) := by
        intro addr
        by_cases heq : r.source = addr
        · subst heq
          rw [Option.filter_some_pos (by simp), receiveTurn, hc, ok_bind, hrecv, ok_bind, if_pos rfl, lookup_put_self]
          rfl
        · rw [Option.filter_some_neg (by simpa using heq), receiveTurn, if_neg heq, lookup_put_ne _ _ (Ne.symm heq)]
          rfl
      cases hresult : call.result with
      | error e =>
          rw [hresult] at hstep
          cases hstep
          refine ⟨hput, fun addr => ?_⟩
          rw [turn, Iteration.turnOf, hreceived, hreceive addr, ok_bind]
          simp [Iteration.outputOf, hreceived]
      | ok len =>
          rw [hresult] at hstep
          obtain ⟨hsound, hdelivered, hserved, -⟩ := hput.serveAll hstep
          refine ⟨hsound, fun addr => ?_⟩
          have hturn := hput.serveAll_turn hstep (hreceive addr)
          rw [Iteration.turnOf, Iteration.outputOf, hreceived, hserved, if_pos rfl, hdelivered, hturn]
          simp

theorem Sound.run (h : s.Sound) {its : List Iteration} {passes : List Pass}
    (hrun : runAll (Server.step host cfg) s its = .ok (passes, s')) (addr : SocketAddr) :
    runAll (turn host cfg) (s.clients.lookup addr) (List.zipWith (fun it pass => it.turnOf pass addr) its passes) =
      .ok (List.zipWith (fun it pass => it.outputOf pass addr) its passes, s'.clients.lookup addr) := by
  induction its generalizing s passes with
  | nil =>
      cases hrun
      rfl
  | cons it its ih =>
      obtain ⟨pass, t, passes', hstep, hrest, rfl⟩ := runAll_cons_eq_ok.mp hrun
      obtain ⟨hsound, hturn⟩ := h.step hstep
      rw [List.zipWith_cons_cons, List.zipWith_cons_cons]
      exact runAll_cons (hturn addr) (ih hsound hrest)

/-- In every run the server does for an address what it would do with this address as its only client, on the datagrams
from there and at the iterations that get to serving connections. -/
theorem run_isolated (host : Host) (cfg : ServerConfig) {its : List Iteration} {passes : List Pass}
    (hrun : runAll (Server.step host cfg) start its = .ok (passes, s)) (addr : SocketAddr) :
    runAll (turn host cfg) none (List.zipWith (fun it pass => it.turnOf pass addr) its passes) =
      .ok (List.zipWith (fun it pass => it.outputOf pass addr) its passes, s.clients.lookup addr) :=
  sound_start.run hrun addr

end Server

/-! ## Two clients -/

def clientAddr (port : UInt16) : SocketAddr := ⟨.v4 0x7f000001, port⟩

def plainAcceptance : Acceptance := ⟨.ok (), ⟨false, none⟩, 0⟩

def oneAnswer (addr : SocketAddr) : Service :=
  ⟨[⟨.ok [addr.port.toUInt8, addr.port.toUInt8], .ok ()⟩, ⟨.error .done, .ok ()⟩],
    ⟨false, .keep, fun _ w => w, 0, 0⟩, false⟩

def inOrder (received : Option Receipt) (service : SocketAddr → Service) : Iteration :=
  ⟨received, service, id, fun _ => .refl _⟩

def iterationFrom (port : UInt16) (data : List UInt8) : Iteration :=
  inOrder (some ⟨clientAddr port, ⟨data, .ok []⟩, plainAcceptance⟩) oneAnswer

theorem run_isolated_two_clients : ∃ passes s,
    runAll (Server.step smallHost ⟨.zero, ModeManager.defaultTable⟩) Server.start
      [iterationFrom 1 [1, 5], iterationFrom 2 [1, 6]] = .ok (passes, s) ∧
    passes.map (fun pass => pass.sent.lookup (clientAddr 1)) = [some [[1, 1, 1]], some [[1, 1, 1]]] ∧
    runAll (turn smallHost ⟨.zero, ModeManager.defaultTable⟩) none
      (List.zipWith (fun it pass => it.turnOf pass (clientAddr 1))
        [iterationFrom 1 [1, 5], iterationFrom 2 [1, 6]] passes) =
      .ok (List.zipWith (fun it pass => it.outputOf pass (clientAddr 1))
        [iterationFrom 1 [1, 5], iterationFrom 2 [1, 6]] passes,
        s.clients.lookup (clientAddr 1)) := by
  obtain ⟨⟨passes, s⟩, hrun, hsent⟩ := exists_ok_of_any
    (x := runAll (Server.step smallHost ⟨.zero, ModeManager.defaultTable⟩) Server.start
      [iterationFrom 1 [1, 5], iterationFrom 2 [1, 6]])
    (p := fun r => decide (r.1.map (fun pass => pass.sent.lookup (clientAddr 1)) =
      [some [[1, 1, 1]], some [[1, 1, 1]]]))
    (by decide +kernel)
  refine ⟨passes, s, hrun, of_decide_eq_true hsent, ?_⟩
  exact Server.run_isolated smallHost ⟨.zero, ModeManager.defaultTable⟩ hrun (clientAddr 1)

/-! ## Datagrams that are refused -/

private theorem recv_empty (host : Host) (hxdp : c.xdpSocket = false) (xdp : Except String (List UInt8)) :
    c.recv host ⟨[], xdp⟩ = .ok (⟨.error (.fec "Invalid raw packet length"), []⟩, c) := by
  have hblock : c.readBlock host ⟨[], xdp⟩ = .ok (.ok (host.platform.alloc, 0)) := by
    rw [QuicFuscateConnection.readBlock, hxdp, if_neg Bool.false_ne_true]
    simp [sliceOf, copyFront]
  rw [recv, hblock, ok_bind]
  dsimp only
  rw [Packet.fromBlock, if_pos (.inl rfl)]
  rfl

/-- An iteration that reads an empty datagram, from a client that can be accepted. -/
structure Iteration.ReadsEmpty (it : Iteration) (source : SocketAddr) : Prop where
  received : ∃ r, it.received = some r ∧ r.source = source ∧ r.input.data = [] ∧ r.acceptance.accept = .ok ()

namespace Server

variable {s : Server} {it : Iteration}

/-- No connection has an XDP socket. -/
def Socketless (s : Server) : Prop := ∀ addr c, s.clients.lookup addr = some c → c.xdpSocket = false

theorem Sound.socketless (h : s.Sound) : s.Socketless := fun _ _ hfound => (h.lookup _ hfound).xdp

private theorem socketless_of_run {its : List Iteration} {passes : List Pass}
    (hrun : runAll (step host cfg) start its = .ok (passes, s)) : s.Socketless :=
  (runAll_invariant Sound hrun sound_start fun _ _ _ _ h hstep => (h.step hstep).1).socketless

/-- Such an iteration only makes sure that its source has a connection. -/
private theorem step_readsEmpty (host : Host) (cfg : ServerConfig) {source : SocketAddr} (hs : s.Socketless)
    (hit : it.ReadsEmpty source) :
    ∃ s', s.step host cfg it = .ok (⟨[], false, []⟩, s') ∧ s'.out = s.out ∧ s'.Socketless ∧
      (s'.clients.lookup source).isSome = true ∧
      (∀ addr c, s.clients.lookup addr = some c → s'.clients.lookup addr = some c) ∧
      ∀ addr, addr ≠ source → s'.clients.lookup addr = s.clients.lookup addr := by
  obtain ⟨⟨src, input, acceptance⟩, hreceived, rfl, hdata, haccept⟩ := hit.received
  dsimp only at hdata haccept
  obtain ⟨c, hc, hsocket, hold⟩ : ∃ c, connectionFor cfg (s.clients.lookup src) acceptance = .ok c ∧
      c.xdpSocket = false ∧ ∀ c₀, s.clients.lookup src = some c₀ → c₀ = c := by
    cases hknown : s.clients.lookup src with
    | some c => exact ⟨c, rfl, hs src c hknown, fun c₀ h => (Option.some.inj h).symm⟩
    | none =>
        refine ⟨.new (AdaptiveFec.new cfg.initialMode cfg.windowSizes acceptance.now) acceptance.stealthManager false,
          ?_, rfl, fun c₀ h => by cases h⟩
        rw [connectionFor, newServer, haccept]
        rfl
  refine ⟨⟨put s.clients src c, s.out⟩, ?_, rfl, ?_, ?_, ?_, ?_⟩
  · rw [step, hreceived]
    dsimp only
    rw [hc, ok_bind]
    obtain ⟨data, xdp⟩ := input
    dsimp only at hdata
    rw [hdata, recv_empty host hsocket, ok_bind]
    rfl
  · intro addr c₁ hfound
    by_cases heq : addr = src
    · subst heq
      rw [lookup_put_self, Option.some.injEq] at hfound
      exact hfound ▸ hsocket
    · rw [lookup_put_ne _ _ heq] at hfound
      exact hs addr c₁ hfound
  · rw [lookup_put_self]
    rfl
  · intro addr c₁ hfound
    by_cases heq : addr = src
    · subst heq
      rw [lookup_put_self, hold c₁ hfound]
    · rw [lookup_put_ne _ _ heq, hfound]
  · exact fun addr hne => lookup_put_ne _ _ hne

/-- As long as empty datagrams arrive, from whatever sources, nothing is sent, no connection is served, updated or
dropped, and every source gets a connection that stays. -/
theorem flood_starves (host : Host) (cfg : ServerConfig) {s : Server} (hs : s.Socketless) {its : List Iteration}
    {sources : List SocketAddr} (hits : List.Forall₂ Iteration.ReadsEmpty its sources) :
    ∃ s', runAll (step host cfg) s its = .ok (List.replicate its.length ⟨[], false, []⟩, s') ∧ s'.out = s.out ∧
      (∀ addr c, s.clients.lookup addr = some c → s'.clients.lookup addr = some c) ∧
      ∀ addr, (s'.clients.lookup addr).isSome = true ↔ (s.clients.lookup addr).isSome = true ∨ addr ∈ sources := by
  induction hits generalizing s with
  | nil => exact ⟨s, rfl, rfl, fun _ _ h => h, fun addr => by simp⟩
  | @cons it source its sources hit _ ih =>
      obtain ⟨t, hstep, hout, ht, hsource, hkept, hothers⟩ := step_readsEmpty host cfg hs hit
      obtain ⟨s', hrun, hout', hkept', hkeys⟩ := ih ht
      refine ⟨s', runAll_cons hstep hrun, hout'.trans hout, fun addr c h => hkept' addr c (hkept addr c h),
        fun addr => ?_⟩
      rw [hkeys addr, List.mem_cons]
      by_cases heq : addr = source
      · subst heq
        simp [hsource]
      · rw [hothers addr heq]
        simp [heq]

/-- Two spoofed sources get a connection each, and a client from before is not served any more. -/
theorem flood_starves_two_sources : ∃ passes s s',
    runAll (step smallHost ⟨.zero, ModeManager.defaultTable⟩) start [iterationFrom 3 [1, 5]] = .ok (passes, s) ∧
    passes.map (fun pass => pass.sent) = [[(clientAddr 3, [[1, 3, 3]])]] ∧
    runAll (step smallHost ⟨.zero, ModeManager.defaultTable⟩) s [iterationFrom 1 [], iterationFrom 2 []] =
      .ok ([⟨[], false, []⟩, ⟨[], false, []⟩], s') ∧
    (s'.clients.lookup (clientAddr 1)).isSome = true ∧ (s'.clients.lookup (clientAddr 2)).isSome = true := by
  obtain ⟨⟨passes, s⟩, hbefore, hsent⟩ := exists_ok_of_any
    (x := runAll (step smallHost ⟨.zero, ModeManager.defaultTable⟩) start [iterationFrom 3 [1, 5]])
    (p := fun r => decide (r.1.map (fun pass => pass.sent) = [[(clientAddr 3, [[1, 3, 3]])]])) (by decide +kernel)
  have hreads : ∀ port, (iterationFrom port []).ReadsEmpty (clientAddr port) := fun port => ⟨_, rfl, rfl, rfl, rfl⟩
  obtain ⟨s', hrun, -, -, hkeys⟩ := flood_starves smallHost ⟨.zero, ModeManager.defaultTable⟩
    (socketless_of_run hbefore) (.cons (hreads 1) (.cons (hreads 2) .nil))
  exact ⟨passes, s, s', hbefore, of_decide_eq_true hsent, hrun, (hkeys _).mpr (.inr (by simp)),
    (hkeys _).mpr (.inr (by simp))⟩

end Server

end QuicFuscate.Core
