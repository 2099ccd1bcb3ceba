import QuicFuscate.Core.Client
import QuicFuscate.Core.Proofs.Server
import QuicFuscate.Fec.Proofs.OneWindow
import QuicFuscate.Fec.Proofs.Refusal

/-!
# Loss reports between datagrams

Both programs report the loss statistics after every datagram, and every report makes a new decoder, even if it
changes nothing.  A decoder of the programs therefore never sees a second packet, and if no window has a single
packet it never decodes.  What reaches the library comes from the decoder of the previous mode, in the first half
of a cross-fade.
-/

namespace QuicFuscate.Fec

open Framework

/-! ## Rested codecs -/

/-- No window can be filled by a single packet. -/
structure ModeManager.Roomy (m : ModeManager) : Prop where
  current : m.currentWindow ≠ 1
  table : ∀ mode, windowFor m.windowSizes mode ≠ 1

theorem FecMode.Admits.ne_one {mode : FecMode} {window : ℕ} (h : mode.Admits window) : window ≠ 1 := by
  cases mode <;> simp only [FecMode.Admits, FecMode.windowRange] at h <;> omega

theorem ModeManager.Roomy.update {m : ModeManager} (h : m.Roomy) (r : Reading) : (m.update r).2.Roomy := by
  refine ⟨?_, fun mode => by rw [update_windowSizes]; exact h.table mode⟩
  obtain ⟨-, hu⟩ | ⟨-, -, hu⟩ | ⟨-, -, -, hu⟩ | ⟨-, -, hu⟩ := update_cases r m <;> rw [hu]
  · exact h.table .extreme
  · exact h.current
  · exact (FecMode.admits_clamp _ _).ne_one
  · exact (FecMode.admits_clamp _ _).ne_one

namespace AdaptiveFec

variable {F : Gf16Arith} {env : Platform} {fec fec' : AdaptiveFec}

/-- A codec whose decoder has not seen a packet. -/
structure Rested (fec : AdaptiveFec) : Prop where
  manager : fec.modeMgr.Roomy
  decoder : fec.decoder = .new fec.modeMgr.currentMode fec.modeMgr.currentWindow

private theorem rested_new (mode : FecMode) {windowSizes : FecMode → Option ℕ}
    (h : ∀ mode, ModeManager.windowFor windowSizes mode ≠ 1) (now : ℕ) : (new mode windowSizes now).Rested where
  manager := ⟨h mode, h⟩
  decoder := rfl

private theorem rested_reportLoss (h : fec.modeMgr.Roomy) (r : Reading) : (fec.reportLoss r).Rested := by
  refine ⟨by rw [reportLoss_modeMgr]; exact h.update r, ?_⟩
  rw [reportLoss_modeMgr, reportLoss_eq]
  cases (fec.modeMgr.update r).1 <;> rfl

theorem Rested.countDown (h : fec.Rested) : fec.countDown.Rested := by
  unfold AdaptiveFec.countDown
  split
  · dsimp only
    split <;> exact ⟨h.manager, h.decoder⟩
  · exact h

theorem Rested.onSend (h : fec.Rested) {pkt : Packet} {queue queue' : List Packet}
    (hsend : fec.onSend F env pkt queue = .ok (queue', fec')) : fec'.Rested := by
  obtain ⟨clone, rfl⟩ := onSend_state hsend
  exact countDown ⟨h.manager, h.decoder⟩

private theorem onReceive_of_not_fading {pkt : Packet} {result : Except String (List Packet)}
    (hfading : fec.isFading = false) (h : fec.onReceive F env pkt = .ok (result, fec')) :
    ∃ decoder, receiveInto F env fec.decoder pkt [] = .ok (result, decoder) := by
  rw [onReceive, cloneForTransition, hfading] at h
  simp only [Bool.false_eq_true, if_false, pure_eq_ok, ok_bind, bind_eq_ok] at h
  obtain ⟨⟨first, decoder⟩, hinto, h⟩ := h
  refine ⟨decoder, ?_⟩
  cases first with
  | error e =>
      cases h
      exact hinto
  | ok recovered =>
      dsimp only [receiveTransition] at h
      split at h
      · rename_i hclone
        cases hclone
      · cases h
        exact hinto

theorem Rested.onReceive (h : fec.Rested) (hfading : fec.isFading = false) {pkt : Packet} {packets : List Packet}
    (hrec : fec.onReceive F env pkt = .ok (.ok packets, fec')) : packets = [] := by
  obtain ⟨decoder, hinto⟩ := onReceive_of_not_fading hfading hrec
  rw [h.decoder] at hinto
  rcases (receiveInto_answer (DecoderVariant.sized_new _ _) hinto).2 with ⟨-, hsame⟩ | ⟨-, -, hlt, hle, -⟩
  · exact hsame packets rfl
  · rw [DecoderVariant.new_rowCount, DecoderVariant.new_k] at hlt hle
    exact absurd (Nat.le_antisymm hle hlt) h.manager.current

end AdaptiveFec

end QuicFuscate.Fec

namespace QuicFuscate.Core

open Framework Fec Stealth QuicFuscateConnection

/-! ## One connection -/

section Connection

variable {host : Host} {c c' : QuicFuscateConnection} {out out' : List UInt8}

private theorem recv_error_unchanged {input : RecvInput} {call : RecvCall} {e : ConnectionError}
    (h : c.recv host input = .ok (call, c')) (he : call.result = .error e) : c' = c := by
  rw [recv, bind_eq_ok] at h
  obtain ⟨block, -, h⟩ := h
  cases block with
  | error e' =>
      cases h
      rfl
  | ok block =>
      dsimp only at h
      rw [bind_eq_ok] at h
      obtain ⟨packet, -, h⟩ := h
      cases packet with
      | error e' =>
          cases h
          rfl
      | ok packet =>
          dsimp only at h
          rw [bind_eq_ok] at h
          obtain ⟨⟨recovered, fec⟩, hrec, h⟩ := h
          cases recovered with
          | error e' =>
              cases h
              rw [(AdaptiveFec.onReceive_error_unchanged hrec).2.2]
          | ok packets =>
              dsimp only at h
              rw [bind_eq_ok] at h
              obtain ⟨delivered, -, h⟩ := h
              cases h
              cases he

private theorem recv_rested {input : RecvInput} {call : RecvCall} (hc : c.fec.Rested) (hfading : c.fec.isFading = false)
    (h : c.recv host input = .ok (call, c')) : call.delivered = [] := by
  rcases recv_cases h with ⟨hnone, -⟩ | ⟨_, _, packet, recovered, fec, -, -, hrec, hcases⟩
  · exact hnone
  · rcases hcases with ⟨hnone, -⟩ | ⟨packets, m, rfl, hdeliver, -⟩
    · exact hnone
    · rw [hc.onReceive hfading hrec, deliver, pure_eq_ok, Except.ok.injEq, Prod.mk.injEq] at hdeliver
      exact hdeliver.1.symm

private theorem recv_modeMgr {input : RecvInput} {call : RecvCall} (h : c.recv host input = .ok (call, c')) :
    c'.fec.modeMgr = c.fec.modeMgr := by
  rcases recv_cases h with ⟨-, rfl⟩ | ⟨_, _, packet, recovered, fec, -, -, hrec, ⟨-, rfl⟩ | ⟨_, _, -, -, rfl⟩⟩
  · rfl
  · exact (AdaptiveFec.onReceive_keeps hrec).1
  · exact (AdaptiveFec.onReceive_keeps hrec).1

private theorem send_fec {input : SendInput} {call : SendCall} (h : c.send host input = .ok (call, c')) :
    c'.fec = c.fec ∨ ∃ pkt queue queue', c.fec.onSend host.gf16 host.platform pkt queue = .ok (queue', c'.fec) := by
  rcases send_cases h with ⟨-, -, -, -, rfl⟩ | ⟨p, rest, -, -, rfl, -⟩ |
    ⟨-, bytes, c₁, fresh, repairs, -, -, henqueue, -, -, -, -, rfl, -⟩
  · exact .inl rfl
  · exact .inl rfl
  · simp only [enqueue, bind_eq_ok] at henqueue
    obtain ⟨block, -, ⟨payload, m⟩, -, buffer, -, ⟨queue, fec⟩, hsend, henqueue⟩ := henqueue
    rw [← Except.ok.inj henqueue]
    exact .inr ⟨_, _, _, hsend⟩

private theorem send_modeMgr {input : SendInput} {call : SendCall} (h : c.send host input = .ok (call, c')) :
    c'.fec.modeMgr = c.fec.modeMgr := by
  rcases send_fec h with hsame | ⟨pkt, queue, queue', hsend⟩
  · rw [hsame]
  · obtain ⟨clone, hstate⟩ := AdaptiveFec.onSend_state hsend
    rw [hstate, AdaptiveFec.countDown_modeMgr]

private theorem sendLoop_modeMgr {answers : List Answer} {datagrams : List (List UInt8)}
    (h : sendLoop host c out answers = .ok (datagrams, c', out')) : c'.fec.modeMgr = c.fec.modeMgr := by
  induction answers generalizing c out datagrams with
  | nil => cases h
  | cons answer answers ih =>
      rw [sendLoop, bind_eq_ok] at h
      obtain ⟨⟨call, c₁⟩, hsend, h⟩ := h
      have hfirst := send_modeMgr hsend
      dsimp only at h
      cases hresult : call.result with
      | error e =>
          rw [hresult] at h
          cases h
          exact hfirst
      | ok len =>
          rw [hresult] at h
          dsimp only at h
          split at h
          · cases h
            exact hfirst
          · simp only [bind_eq_ok] at h
            obtain ⟨datagram, -, ⟨rest, c₂, out₂⟩, hloop, h⟩ := h
            cases h
            exact (ih hloop).trans hfirst

private theorem serve_rested {service : Service} {xdpSocket : Bool} {datagrams : List (List UInt8)}
    (hc : c.fec.modeMgr.Roomy)
    (h : serve host service xdpSocket c out = .ok (datagrams, c', out')) : c'.fec.Rested := by
  rw [serve, bind_eq_ok] at h
  obtain ⟨⟨datagrams', c₁, out₁⟩, hloop, h⟩ := h
  cases h
  apply AdaptiveFec.rested_reportLoss
  rw [sendLoop_modeMgr hloop]
  exact hc

end Connection

/-! ## The server -/

namespace Server

variable {host : Host} {cfg : ServerConfig} {s s' : Server} {it : Iteration} {pass : Pass}

/-- No decoder of the server has seen a packet. -/
def Rested (s : Server) : Prop := ∀ e ∈ s.clients, e.2.fec.Rested

private theorem serveAll_rested {delivered : List (List UInt8)} (hs : ∀ e ∈ s.clients, e.2.fec.modeMgr.Roomy)
    (h : s.serveAll host it delivered = .ok (pass, s')) : s'.Rested ∧ pass.delivered = delivered := by
  rw [serveAll, bind_eq_ok] at h
  obtain ⟨⟨sent, clients, out⟩, hvisit, h⟩ := h
  cases h
  refine ⟨fun e he => ?_, rfl⟩
  exact visit_forall (P := fun c => c.fec.modeMgr.Roomy) (Q := fun c => c.fec.Rested)
    (fun _ _ _ _ _ _ hc hserve => serve_rested hc hserve)
    (fun e he => hs e ((it.order_perm s.clients).mem_iff.mp he)) hvisit e (List.mem_filter.mp he).1

private theorem connectionFor_rested (hcfg : ∀ mode, ModeManager.windowFor cfg.windowSizes mode ≠ 1)
    {known : Option QuicFuscateConnection} {a : Acceptance} {c : QuicFuscateConnection}
    (hknown : ∀ c ∈ known, c.fec.Rested) (h : connectionFor cfg known a = .ok c) : c.fec.Rested := by
  cases known with
  | some c₀ =>
      cases h
      exact hknown c rfl
  | none =>
      cases haccept : a.accept with
      | error e =>
          rw [connectionFor, newServer, haccept] at h
          cases h
      | ok u =>
          rw [connectionFor, newServer, haccept] at h
          cases h
          exact AdaptiveFec.rested_new _ hcfg _

theorem Rested.lookup (h : s.Rested) {addr : SocketAddr} : ∀ c ∈ s.clients.lookup addr, c.fec.Rested := by
  intro c hc
  obtain ⟨l, r, hsplit⟩ := List.lookup_eq_some_iff.mp hc
  exact h (addr, c) (by rw [hsplit.1]; simp)

/-- An iteration brings something to the library only if the connection is in the first half of a cross-fade, and
leaves all decoders rested. -/
theorem Rested.step (hcfg : ∀ mode, ModeManager.windowFor cfg.windowSizes mode ≠ 1) (h : s.Rested)
    (hstep : s.step host cfg it = .ok (pass, s')) :
    s'.Rested ∧ (pass.delivered ≠ [] → ∃ r c, it.received = some r ∧ s.clients.lookup r.source = some c ∧
      c.fec.isFading = true) := by
  rw [Server.step] at hstep
  cases hreceived : it.received with
  | none =>
      rw [hreceived] at hstep
      obtain ⟨hrested, hdelivered⟩ := serveAll_rested (fun e he => (h e he).manager) hstep
      exact ⟨hrested, fun hne => absurd hdelivered hne⟩
  | some r =>
      rw [hreceived] at hstep
      dsimp only at hstep
      rw [bind_eq_ok] at hstep
      obtain ⟨c, hc, hstep⟩ := hstep
      rw [bind_eq_ok] at hstep
      obtain ⟨⟨call, c₁⟩, hrecv, hstep⟩ := hstep
      dsimp only at hstep
      have hrested : c.fec.Rested := connectionFor_rested hcfg h.lookup hc
      -- A new connection is not fading, so a connection that delivers was there before.
      have hknown : call.delivered ≠ [] → ∃ c₀, s.clients.lookup r.source = some c₀ ∧ c₀.fec.isFading = true := by
        intro hne
        have hfading : c.fec.isFading = true := by
          cases hf : c.fec.isFading with
          | true => rfl
          | false => exact absurd (recv_rested hrested hf hrecv) hne
        cases hlookup : s.clients.lookup r.source with
        | some c₀ =>
            rw [hlookup] at hc
            cases hc
            exact ⟨c, rfl, hfading⟩
        | none =>
            rw [hlookup, connectionFor, newServer] at hc
            cases haccept : r.acceptance.accept with
            | error e =>
                rw [haccept] at hc
                cases hc
            | ok u =>
                rw [haccept] at hc
                cases hc
                cases hfading
      cases hresult : call.result with
      | error e =>
          rw [hresult] at hstep
          cases hstep
          obtain rfl := recv_error_unchanged hrecv hresult
          refine ⟨fun e' he' => ?_, fun hne => ?_⟩
          · rcases mem_put he' with rfl | he'
            · exact hrested
            · exact h e' he'
          · obtain ⟨c₀, hlookup, hfading⟩ := hknown hne
            exact ⟨r, c₀, rfl, hlookup, hfading⟩
      | ok len =>
          rw [hresult] at hstep
          obtain ⟨hrested', hdelivered⟩ := serveAll_rested (fun e' he' => by
            rcases mem_put he' with rfl | he'
            · rw [recv_modeMgr hrecv]
              exact hrested.manager
            · exact (h e' he').manager) hstep
          refine ⟨hrested', fun hne => ?_⟩
          obtain ⟨c₀, hlookup, hfading⟩ := hknown (hdelivered ▸ hne)
          exact ⟨r, c₀, rfl, hlookup, hfading⟩

/-- Whatever arrives at a server none of whose windows has a single packet, a payload reaches the library only through a
connection that is in the first half of a cross-fade at that moment. -/
theorem delivers_only_fading (host : Host) (cfg : ServerConfig)
    (hcfg : ∀ mode, ModeManager.windowFor cfg.windowSizes mode ≠ 1) {its : List Iteration} {passes : List Pass}
    (hrun : runAll (Server.step host cfg) start its = .ok (passes, s)) (hstep : s.step host cfg it = .ok (pass, s'))
    (hdelivered : pass.delivered ≠ []) :
    ∃ r c, it.received = some r ∧ s.clients.lookup r.source = some c ∧ c.fec.isFading = true := by
  have hrested : s.Rested := runAll_invariant Rested hrun (fun e he => absurd he List.not_mem_nil)
    fun _ _ _ _ hs hone => (hs.step hcfg hone).1
  exact (hrested.step hcfg hstep).2 hdelivered

/-- A datagram, a packet of the library and as many calls of `send` as its repair packets need, and then a report of a
high loss. -/
def alarmed (data : List UInt8) : Iteration :=
  inOrder (some ⟨clientAddr 1, ⟨data, .ok []⟩, plainAcceptance⟩)
    fun _ => ⟨⟨.ok [9], .ok ()⟩ :: List.replicate 8 ⟨.error .done, .ok ()⟩, ⟨true, .keep, fun _ w => w, 0, 0⟩, false⟩

/-- Two packets for a window of two, with a change of the mode between them. -/
theorem delivers_only_fading_after_alarm : ∃ passes s pass s',
    runAll (Server.step smallHost ⟨.light, fun _ => some 2⟩) start [alarmed [1, 5]] = .ok (passes, s) ∧
    s.step smallHost ⟨.light, fun _ => some 2⟩ (alarmed [1, 6]) = .ok (pass, s') ∧ pass.delivered.length = 2 ∧
    ∃ r c, (alarmed [1, 6]).received = some r ∧ s.clients.lookup r.source = some c ∧ c.fec.isFading = true := by
  obtain ⟨⟨passes, s⟩, hrun, hnext⟩ := exists_ok_of_any
    (x := runAll (Server.step smallHost ⟨.light, fun _ => some 2⟩) start [alarmed [1, 5]])
    (p := fun r => (r.2.step smallHost ⟨.light, fun _ => some 2⟩ (alarmed [1, 6])).toOption.any
      fun q => q.1.delivered.length = 2) (by decide +kernel)
  obtain ⟨⟨pass, s'⟩, hstep, htwo⟩ := exists_ok_of_any hnext
  have hlength : pass.delivered.length = 2 := of_decide_eq_true htwo
  have hne : pass.delivered ≠ [] := by
    intro hnil
    rw [hnil] at hlength
    cases hlength
  exact ⟨passes, s, pass, s', hrun, hstep, hlength,
    delivers_only_fading smallHost ⟨.light, fun _ => some 2⟩ (fun _ => Nat.succ_succ_ne_one 0) hrun hstep hne⟩

end Server

/-! ## The client -/

namespace Client

variable {host : Host} {path : String} {c c' : Client} {it : ClientIteration} {pass : ClientPass}

theorem initHttp3_eq_ok {answers : Http3Answers} (h : c.initHttp3 answers = .ok c') :
    c' = { c with h3Conn := true } := by
  rw [initHttp3] at h
  split at h
  · rename_i hconn
    cases h
    rw [← hconn]
  · simp only [bind_eq_ok] at h
    obtain ⟨-, -, -, -, h⟩ := h
    cases h
    rfl

private theorem sendHttp3Request_conn (c : Client) (answers : Http3Answers) (manager : Manager) (path : String) :
    (c.sendHttp3Request answers manager path).2.conn = c.conn := by
  rw [sendHttp3Request]
  cases h : c.initHttp3 answers with
  | error e => rfl
  | ok c₁ =>
      obtain rfl := initHttp3_eq_ok h
      rfl

theorem request_conn (c : Client) (it : ClientIteration) (path : String) : (c.request it path).2.conn = c.conn := by
  have hconn := c.sendHttp3Request_conn it.http3 it.manager path
  rw [request]
  split
  · split <;> rename_i heq <;> rw [heq] at hconn <;> exact hconn
  · rfl

private theorem receive_rested {read : SocketRead} {delivered : List (List UInt8)} (h : c.conn.fec.Rested)
    (hreceive : c.receive host read = .ok (delivered, c')) :
    c'.conn.fec.modeMgr.Roomy ∧ (delivered ≠ [] → c.conn.fec.isFading = true) := by
  cases read with
  | data input =>
      rw [receive, bind_eq_ok] at hreceive
      obtain ⟨⟨call, conn⟩, hrecv, hreceive⟩ := hreceive
      cases hreceive
      refine ⟨by rw [recv_modeMgr hrecv]; exact h.manager, fun hne => ?_⟩
      cases hf : c.conn.fec.isFading with
      | true => rfl
      | false => exact absurd (recv_rested h hf hrecv) hne
  | wouldBlock =>
      cases hreceive
      exact ⟨h.manager, fun hne => absurd rfl hne⟩
  | failed =>
      cases hreceive
      exact ⟨h.manager, fun hne => absurd rfl hne⟩

theorem step_eq_ok (hstep : c.step host path it = .ok (pass, c')) :
    (it.read = .failed ∧ pass = ⟨[], none, []⟩ ∧ c' = c) ∨
      ∃ c₁ conn out, c.receive host it.read = .ok (pass.delivered, c₁) ∧ pass.request = (c₁.request it path).1 ∧
        serve host it.service it.xdpSocket (c₁.request it path).2.conn (c₁.request it path).2.out =
          .ok (pass.sent, conn, out) ∧
        c' = { (c₁.request it path).2 with conn := conn, out := out } := by
  rw [step] at hstep
  cases hread : it.read with
  | failed =>
      rw [hread] at hstep
      cases hstep
      exact .inl ⟨rfl, rfl, rfl⟩
  | data input =>
      rw [hread] at hstep
      simp only [bind_eq_ok] at hstep
      obtain ⟨⟨delivered, c₁⟩, hreceive, ⟨sent, conn, out⟩, hserve, hstep⟩ := hstep
      cases hstep
      exact .inr ⟨c₁, conn, out, hreceive, rfl, hserve, rfl⟩
  | wouldBlock =>
      rw [hread] at hstep
      simp only [bind_eq_ok] at hstep
      obtain ⟨⟨delivered, c₁⟩, hreceive, ⟨sent, conn, out⟩, hserve, hstep⟩ := hstep
      cases hstep
      exact .inr ⟨c₁, conn, out, hreceive, rfl, hserve, rfl⟩

private theorem step_rested (h : c.conn.fec.Rested) (hstep : c.step host path it = .ok (pass, c')) :
    c'.conn.fec.Rested ∧ (pass.delivered ≠ [] → c.conn.fec.isFading = true) := by
  rcases step_eq_ok hstep with ⟨-, rfl, rfl⟩ | ⟨c₁, conn, out, hreceive, -, hserve, rfl⟩
  · exact ⟨h, fun hne => absurd rfl hne⟩
  · obtain ⟨hroomy, hfading⟩ := receive_rested h hreceive
    refine ⟨serve_rested ?_ hserve, hfading⟩
    rw [request_conn]
    exact hroomy

/-- The client is no better off: from its first packet on, what reaches the library comes in the first half of
a cross-fade. -/
theorem run_delivers_only_fading (host : Host) (path hostHeader : String) (mode : FecMode)
    {windowSizes : FecMode → Option ℕ} (hwindows : ∀ mode, ModeManager.windowFor windowSizes mode ≠ 1) (now : ℕ)
    (stealthManager : StealthManager) (xdpSocket : Bool) (answer : Answer) {sent : List (List UInt8)} {c₀ : Client}
    (hstart : start host (.new (AdaptiveFec.new mode windowSizes now) stealthManager xdpSocket) hostHeader answer =
      .ok (sent, c₀))
    {its : List ClientIteration} {passes : List ClientPass}
    (hrun : runAll (Client.step host path) c₀ its = .ok (passes, c)) (hstep : c.step host path it = .ok (pass, c'))
    (hdelivered : pass.delivered ≠ []) : c.conn.fec.isFading = true := by
  have hfirst : c₀.conn.fec.Rested := by
    rw [start, bind_eq_ok] at hstart
    obtain ⟨⟨call, conn⟩, hsend, hstart⟩ := hstart
    simp only [bind_eq_ok] at hstart
    obtain ⟨datagrams, -, hstart⟩ := hstart
    cases hstart
    have hnew := AdaptiveFec.rested_new mode hwindows now
    rcases send_fec hsend with hsame | ⟨pkt, queue, queue', honSend⟩
    · exact hsame ▸ hnew
    · exact hnew.onSend honSend
  have hrested : c.conn.fec.Rested := runAll_invariant (fun c => c.conn.fec.Rested) hrun hfirst
    fun _ _ _ _ h hone => (step_rested h hone).1
  exact (step_rested hrested hstep).2 hdelivered

/-- A datagram for a client that has nothing to send, and then a report of a high loss. -/
def alarmedClient (data : List UInt8) : ClientIteration :=
  ⟨.data ⟨data, .ok []⟩, false, ⟨.ok (), .ok (), .ok ()⟩, .new ⟨[], fun _ => none⟩ [] .default,
    ⟨[⟨.error .done, .ok ()⟩], ⟨true, .keep, fun _ w => w, 0, 0⟩, false⟩, false⟩

/-- A packet and a repair packet for a window of two, with a change of the mode between them. -/
theorem run_delivers_only_fading_after_alarm : ∃ sent c₀ passes c pass c',
    start smallHost (.new (AdaptiveFec.new .light (fun _ => some 2) 0) ⟨false, none⟩ false) "h" ⟨.error .done, .ok ()⟩ =
      .ok (sent, c₀) ∧
    runAll (Client.step smallHost "/") c₀ [alarmedClient [1, 5]] = .ok (passes, c) ∧
    c.step smallHost "/" (alarmedClient [0, 0, 2, 0, 1, 6]) = .ok (pass, c') ∧ pass.delivered.length = 2 ∧
    c.conn.fec.isFading = true := by
  obtain ⟨⟨sent, c₀⟩, hstart, hmore⟩ := exists_ok_of_any
    (x := start smallHost (.new (AdaptiveFec.new .light (fun _ => some 2) 0) ⟨false, none⟩ false) "h"
      ⟨.error .done, .ok ()⟩)
    (p := fun r₀ => (runAll (Client.step smallHost "/") r₀.2 [alarmedClient [1, 5]]).toOption.any
      fun r => (r.2.step smallHost "/" (alarmedClient [0, 0, 2, 0, 1, 6])).toOption.any fun q =>
        q.1.delivered.length = 2)
    (by decide +kernel)
  obtain ⟨⟨passes, c⟩, hrun, hnext⟩ := exists_ok_of_any hmore
  obtain ⟨⟨pass, c'⟩, hstep, htwo⟩ := exists_ok_of_any hnext
  have hlength : pass.delivered.length = 2 := of_decide_eq_true htwo
  have hne : pass.delivered ≠ [] := by
    intro hnil
    rw [hnil] at hlength
    cases hlength
  have hwindows : ∀ mode, ModeManager.windowFor (fun _ => some 2) mode ≠ 1 := fun _ => Nat.succ_succ_ne_one 0
  exact ⟨sent, c₀, passes, c, pass, c', hstart, hrun, hstep, hlength,
    run_delivers_only_fading smallHost "/" "h" .light hwindows 0 _ _ _ hstart hrun hstep hne⟩

end Client

end QuicFuscate.Core
