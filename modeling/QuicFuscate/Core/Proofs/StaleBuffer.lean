import QuicFuscate.Core.Proofs.Loop

/-!
# Datagrams out of a stale buffer

A connection with an XDP socket sends its packets there and writes nothing to the buffer of the program.  The client
does not look: it sends as many bytes of its buffer on its own socket as the call has reported, and these are zeros.
-/

namespace QuicFuscate.Core

open Framework Fec Stealth QuicFuscateConnection

variable {host : Host}

/-! ## Sending -/

section Connection

variable {c c' : QuicFuscateConnection} {out out' : List UInt8}

private theorem sliceOf_zero_prefix {d : List UInt8} {len : ℕ} (h : sliceOf out 0 len = .ok d) : d <+: out := by
  obtain ⟨-, rfl⟩ := sliceOf_eq_ok h
  rw [List.drop_zero]
  exact List.take_prefix _ _

private theorem send_xdpSocket {input : SendInput} {call : SendCall} (h : c.send host input = .ok (call, c')) :
    c'.xdpSocket = c.xdpSocket := by
  rcases send_cases h with ⟨-, -, -, -, rfl⟩ | ⟨p, rest, -, -, rfl, -⟩ |
    ⟨-, bytes, c₁, fresh, repairs, -, -, henqueue, -, -, -, -, rfl, -⟩
  · rfl
  · rfl
  · exact (enqueue_cases henqueue).2.2

theorem SendCall.buffer_xdp (call : SendCall) (out : List UInt8) : call.buffer true out = out := rfl

private theorem sendLoop_xdp_done {answer : Answer} {answers : List Answer} {call : SendCall} {e : ConnectionError}
    (hxdp : c.xdpSocket = true) (hsend : c.send host ⟨out, answer.library, answer.xdp⟩ = .ok (call, c'))
    (herror : call.result = .error e) : sendLoop host c out (answer :: answers) = .ok ([], c', out) := by
  rw [sendLoop, hsend, ok_bind]
  dsimp only
  rw [hxdp, SendCall.buffer_xdp, herror]
  rfl

private theorem sendLoop_xdp_cons {c₁ : QuicFuscateConnection} {answer : Answer} {answers : List Answer}
    {call : SendCall} {len : ℕ} {d : List UInt8} {datagrams : List (List UInt8)} (hxdp : c.xdpSocket = true)
    (hsend : c.send host ⟨out, answer.library, answer.xdp⟩ = .ok (call, c₁)) (hlen : call.result = .ok len)
    (hne : len ≠ 0) (hslice : sliceOf out 0 len = .ok d)
    (hrest : sendLoop host c₁ out answers = .ok (datagrams, c', out')) :
    sendLoop host c out (answer :: answers) = .ok (d :: datagrams, c', out') := by
  rw [sendLoop, hsend, ok_bind]
  dsimp only
  rw [hxdp, SendCall.buffer_xdp, hlen]
  dsimp only
  rw [if_neg hne, hslice, ok_bind, hrest]
  rfl

private theorem sendLoop_stale {answers : List Answer} {datagrams : List (List UInt8)} (hxdp : c.xdpSocket = true)
    (h : sendLoop host c out answers = .ok (datagrams, c', out')) : out' = out ∧ ∀ d ∈ datagrams, d <+: out := by
  induction answers generalizing c datagrams with
  | nil => cases h
  | cons answer answers ih =>
      rw [sendLoop, bind_eq_ok] at h
      obtain ⟨⟨call, c₁⟩, hsend, h⟩ := h
      dsimp only at h
      rw [hxdp, SendCall.buffer_xdp] at h
      cases hresult : call.result with
      | error e =>
          rw [hresult] at h
          cases h
          exact ⟨rfl, fun d hd => absurd hd List.not_mem_nil⟩
      | ok len =>
          rw [hresult] at h
          dsimp only at h
          split at h
          · cases h
            exact ⟨rfl, fun d hd => absurd hd List.not_mem_nil⟩
          · simp only [bind_eq_ok] at h
            obtain ⟨d, hslice, ⟨rest, c₂, out₂⟩, hloop, h⟩ := h
            cases h
            obtain ⟨hsame, hrest⟩ := ih ((send_xdpSocket hsend).trans hxdp) hloop
            refine ⟨hsame, fun d' hd' => ?_⟩
            rcases List.mem_cons.mp hd' with rfl | hd'
            · exact sliceOf_zero_prefix hslice
            · exact hrest d' hd'

private theorem serve_stale {service : Service} {xdpSocket : Bool} {datagrams : List (List UInt8)}
    (hxdp : c.xdpSocket = true) (h : serve host service xdpSocket c out = .ok (datagrams, c', out')) :
    c'.xdpSocket = xdpSocket ∧ out' = out ∧ ∀ d ∈ datagrams, d <+: out := by
  rw [serve, bind_eq_ok] at h
  obtain ⟨⟨datagrams', c₁, out₁⟩, hloop, h⟩ := h
  cases h
  exact ⟨rfl, sendLoop_stale hxdp hloop⟩

end Connection

/-! ## The client -/

namespace Client

variable {path : String} {c c' : Client} {it : ClientIteration} {pass : ClientPass}

private theorem request_out (c : Client) (it : ClientIteration) (path : String) :
    (c.request it path).2.out = c.out := by
  have hout : (c.sendHttp3Request it.http3 it.manager path).2.out = c.out := by
    rw [sendHttp3Request]
    cases h : c.initHttp3 it.http3 with
    | error e => rfl
    | ok c₁ =>
        obtain rfl := initHttp3_eq_ok h
        rfl
  rw [request]
  split
  · split <;> rename_i heq <;> rw [heq] at hout <;> exact hout
  · rfl

private theorem receive_socket {read : SocketRead} {delivered : List (List UInt8)}
    (h : c.receive host read = .ok (delivered, c')) : c'.conn.xdpSocket = c.conn.xdpSocket ∧ c'.out = c.out := by
  cases read with
  | data input =>
      rw [receive, bind_eq_ok] at h
      obtain ⟨⟨call, conn⟩, hrecv, h⟩ := h
      cases h
      exact ⟨(recv_keeps hrecv).2.2, rfl⟩
  | wouldBlock =>
      cases h
      exact ⟨rfl, rfl⟩
  | failed =>
      cases h
      exact ⟨rfl, rfl⟩

/-- A client with an XDP socket and a buffer that nothing was written to. -/
structure Blank (c : Client) : Prop where
  xdp : c.conn.xdpSocket = true
  out : c.out = List.replicate 65535 0

theorem Blank.step (h : c.Blank) (hit : it.xdpSocket = true) (hstep : c.step host path it = .ok (pass, c')) :
    c'.Blank ∧ ∀ d ∈ pass.sent, d <+: List.replicate 65535 0 := by
  rcases step_eq_ok hstep with ⟨-, rfl, rfl⟩ | ⟨c₁, conn, out, hreceive, -, hserve, rfl⟩
  · exact ⟨h, fun d hd => absurd hd List.not_mem_nil⟩
  · obtain ⟨hsocket, hsame⟩ := receive_socket hreceive
    rw [request_conn, request_out, hsame, h.out] at hserve
    obtain ⟨hxdp, hout, hzeros⟩ := serve_stale (hsocket.trans h.xdp) hserve
    exact ⟨⟨hxdp.trans hit, hout⟩, hzeros⟩

private theorem start_blank {hostHeader : String} {conn : QuicFuscateConnection} (hconn : conn.xdpSocket = true)
    {answer : Answer} {first : List (List UInt8)} (h : start host conn hostHeader answer = .ok (first, c)) :
    c.Blank ∧ ∀ d ∈ first, d <+: List.replicate 65535 0 := by
  rw [start, bind_eq_ok] at h
  obtain ⟨⟨call, conn'⟩, hsend, h⟩ := h
  rw [bind_eq_ok] at h
  obtain ⟨sent, hreported, h⟩ := h
  have hbuffer : call.buffer conn.xdpSocket (List.replicate 65535 0) = List.replicate 65535 0 := by
    unfold SendCall.buffer
    rw [hconn]
  rw [hbuffer] at hreported h
  cases h
  refine ⟨⟨(send_xdpSocket hsend).trans hconn, rfl⟩, ?_⟩
  unfold reported at hreported
  split at hreported
  · split at hreported
    · rw [bind_eq_ok] at hreported
      obtain ⟨d, hslice, hreported⟩ := hreported
      cases hreported
      intro d' hd'
      rw [List.mem_singleton.mp hd']
      exact sliceOf_zero_prefix hslice
    · cases hreported
      exact fun d hd => absurd hd List.not_mem_nil
  · cases hreported
    exact fun d hd => absurd hd List.not_mem_nil

theorem Blank.run (h : c.Blank) {its : List ClientIteration} (hits : ∀ it ∈ its, it.xdpSocket = true)
    {passes : List ClientPass} (hrun : runAll (Client.step host path) c its = .ok (passes, c')) :
    ∀ d ∈ passes.flatMap ClientPass.sent, d <+: List.replicate 65535 0 := by
  induction its generalizing c passes with
  | nil =>
      cases hrun
      exact fun d hd => absurd hd List.not_mem_nil
  | cons it its ih =>
      obtain ⟨pass, c₁, passes', hstep, hrest, rfl⟩ := runAll_cons_eq_ok.mp hrun
      obtain ⟨h₁, hzeros⟩ := h.step (hits it List.mem_cons_self) hstep
      intro d hd
      rw [List.flatMap_cons, List.mem_append] at hd
      rcases hd with hd | hd
      · exact hzeros d hd
      · exact ih h₁ (fun it' hit' => hits it' (List.mem_cons_of_mem _ hit')) hrest d hd

/-- The datagrams of a client that always has an XDP socket are zeros, from the first one on. -/
theorem xdp_sends_zeros (host : Host) (path hostHeader : String) {conn : QuicFuscateConnection}
    (hconn : conn.xdpSocket = true) (answer : Answer) {first : List (List UInt8)} {c₀ : Client}
    (hstart : start host conn hostHeader answer = .ok (first, c₀)) {its : List ClientIteration}
    (hits : ∀ it ∈ its, it.xdpSocket = true) {passes : List ClientPass}
    (hrun : runAll (Client.step host path) c₀ its = .ok (passes, c)) :
    ∀ d ∈ first ++ passes.flatMap ClientPass.sent, d <+: List.replicate 65535 0 := by
  obtain ⟨hblank, hfirst⟩ := start_blank hconn hstart
  intro d hd
  rcases List.mem_append.mp hd with hd | hd
  · exact hfirst d hd
  · exact hblank.run hits hrun d hd

def quietIteration : ClientIteration where
  read := .wouldBlock
  established := false
  http3 := ⟨.ok (), .ok (), .ok ()⟩
  manager := .new ⟨[], fun _ => none⟩ [] .default
  service := ⟨[⟨.ok [5], .ok ()⟩, ⟨.error .done, .ok ()⟩], ⟨false, .keep, fun _ w => w, 0, 0⟩, false⟩
  xdpSocket := true

private theorem slice_zeros {len : ℕ} (h : len ≤ 65535) :
    sliceOf (List.replicate 65535 (0 : UInt8)) 0 len = .ok (List.replicate len 0) := by
  rw [sliceOf_of_le (Nat.zero_le _) (by rw [List.length_replicate]; exact h), List.drop_zero, List.take_replicate,
    Nat.min_eq_left h]

/-- The packets of the library leave on the XDP socket, and zeros leave on the other. -/
theorem xdp_sends_zeros_two_packets : ∃ c₀ passes c,
    start smallHost (plainConnection true) "h" ⟨.ok [7, 9], .ok ()⟩ = .ok ([[0, 0]], c₀) ∧
      runAll (Client.step smallHost "/") c₀ [quietIteration] = .ok (passes, c) ∧
      passes.map ClientPass.sent = [[[0]]] ∧
      ∀ d ∈ [[0, 0]] ++ passes.flatMap ClientPass.sent, d <+: List.replicate 65535 0 := by
  -- the calls do not look at the buffer
  obtain ⟨call₁, conn₁, call₂, conn₂, call₃, conn₃, hsend₁, hlen₁, hsend₂, hlen₂, hsend₃, hlen₃⟩ :
      ∃ call₁ conn₁ call₂ conn₂ call₃ conn₃,
        (plainConnection true).send smallHost ⟨List.replicate 65535 0, .ok [7, 9], .ok ()⟩ = .ok (call₁, conn₁) ∧
        call₁.result = .ok 2 ∧
        conn₁.send smallHost ⟨List.replicate 65535 0, .ok [5], .ok ()⟩ = .ok (call₂, conn₂) ∧
        call₂.result = .ok 1 ∧
        conn₂.send smallHost ⟨List.replicate 65535 0, .error .done, .ok ()⟩ = .ok (call₃, conn₃) ∧
        call₃.result = .error (.quiche .done) := ⟨_, _, _, _, _, _, rfl, rfl, rfl, rfl, rfl, rfl⟩
  have hxdp₁ : conn₁.xdpSocket = true := send_xdpSocket hsend₁
  have hxdp₂ : conn₂.xdpSocket = true := (send_xdpSocket hsend₂).trans hxdp₁
  have hstart : start smallHost (plainConnection true) "h" ⟨.ok [7, 9], .ok ()⟩ =
      .ok ([[0, 0]], ⟨conn₁, "h", false, false, List.replicate 65535 0⟩) := by
    rw [start, hsend₁, ok_bind]
    dsimp only
    rw [show (plainConnection true).xdpSocket = true from rfl, SendCall.buffer_xdp, hlen₁, reported,
      if_pos (by decide), slice_zeros (by decide)]
    rfl
  have hloop : sendLoop smallHost conn₁ (List.replicate 65535 0) quietIteration.service.answers =
      .ok ([[0]], conn₃, List.replicate 65535 0) :=
    sendLoop_xdp_cons hxdp₁ hsend₂ hlen₂ (by decide) (slice_zeros (by decide)) (sendLoop_xdp_done hxdp₂ hsend₃ hlen₃)
  have hstep : Client.step smallHost "/" ⟨conn₁, "h", false, false, List.replicate 65535 0⟩ quietIteration =
      .ok (⟨[], none, [[0]]⟩,
        ⟨conn₃.updateState quietIteration.service.reading true, "h", false, false, List.replicate 65535 0⟩) := by
    have hserve : serve smallHost quietIteration.service true conn₁ (List.replicate 65535 0) = .ok ([[0]],
        conn₃.updateState quietIteration.service.reading true, List.replicate 65535 0) := by
      rw [serve, hloop]
      rfl
    rw [step]
    exact congrArg (fun x => x >>= fun r => pure ((⟨[], none, r.1⟩ : ClientPass),
      (⟨r.2.1, "h", false, false, r.2.2⟩ : Client))) hserve
  have hrun : runAll (Client.step smallHost "/")
      ⟨conn₁, "h", false, false, List.replicate 65535 0⟩ [quietIteration] = _ :=
    runAll_cons hstep rfl
  exact ⟨_, _, _, hstart, hrun, rfl, xdp_sends_zeros smallHost "/" "h" rfl _ hstart (by simp [quietIteration]) hrun⟩

end Client

end QuicFuscate.Core
