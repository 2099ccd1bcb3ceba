import QuicFuscate.Core.Proofs.XdpSocket

/-!
# Frames that do not come back

A send asks the kernel for as many frames as it has sent, and it is the only call that asks.  A frame that the kernel
is not done with at that moment has no send of its own to bring it back, so the pool only shrinks.  When it is empty
the socket still counts as active, and every datagram takes the UDP path.
-/

namespace QuicFuscate.Core.XdpSocket

open Framework

variable {s s' : XdpSocket} {call : Call} {out : Option SendCall}

/-- Every call but the one that sets up new frames. -/
def Call.KeepsPool : Call → Prop
  | .reconfigure _ _ _ => False
  | _ => True

/-- Whether the datagram of a call left in a frame. -/
def SendCall.overXdp (c : SendCall) : Bool :=
  match c.transmitted with
  | some (.xdp, _) => true
  | _ => false

/-- The frames that a call gave to the kernel and got no frame for. -/
def Call.lost : Call → Option SendCall → ℕ
  | .send input _, some c => if c.overXdp ∧ input.completed = [] then 1 else 0
  | _, _ => 0

def lostFrames (calls : List Call) (outs : List (Option SendCall)) : ℕ := (List.zipWith Call.lost calls outs).sum

/-! ## One call -/

private theorem sendUdp_overXdp (input : SendInput) (buffers : List (List UInt8)) :
    (sendUdp input buffers).overXdp = false := by
  unfold sendUdp
  split
  · rfl
  · rfl

/-- The frames of a socket before and after a call that lost some. -/
def Accounts (s s' : XdpSocket) (lost : ℕ) : Prop :=
  lost + (freeFrames s').length ≤ (freeFrames s).length ∧
    (s'.isActive = true → s.isActive = true ∧ lost + (freeFrames s').length = (freeFrames s).length)

private theorem accounts_refl (s : XdpSocket) : Accounts s s 0 :=
  ⟨(Nat.zero_add _).le, fun h => ⟨h, Nat.zero_add _⟩⟩

private theorem accounts_inactive (s : XdpSocket) (udp : UdpSocket) : Accounts s ⟨udp, none⟩ 0 :=
  ⟨Nat.zero_le _, fun h => by cases h⟩

theorem Accounts.trans {s₁ s₂ s₃ : XdpSocket} {m n : ℕ} (h : Accounts s₁ s₂ m) (h' : Accounts s₂ s₃ n) :
    Accounts s₁ s₃ (m + n) := by
  refine ⟨?_, fun hactive => ?_⟩
  · have hfirst := h.1
    have hsecond := h'.1
    omega
  · obtain ⟨hactive', hsecond⟩ := h'.2 hactive
    obtain ⟨hactive'', hfirst⟩ := h.2 hactive'
    exact ⟨hactive'', by omega⟩

/-- A send loses the frame that it sent unless the kernel has one to give back. -/
private theorem send_accounts {input : SendInput} {buffers : List (List UInt8)} {c : SendCall} (hidle : Idle s)
    (h : s.send input buffers = .ok (c, s')) : Accounts s s' (Call.lost (.send input buffers) (some c)) := by
  have hudp : Call.lost (.send input buffers) (some (sendUdp input buffers)) = 0 := by
    rw [Call.lost, sendUdp_overXdp, if_neg (fun h => Bool.false_ne_true h.1)]
  cases hfree : freeFrames s with
  | nil =>
      rw [send_of_no_frame hfree] at h
      cases h
      rw [hudp]
      exact accounts_refl s
  | cons b pool =>
      have hstate := hidle.state_eq hfree
      have hactive : s.isActive = true := by rw [isActive, hstate]; rfl
      cases buffers with
      | nil =>
          unfold send at h
          rw [hstate] at h
          cases h
      | cons data rest =>
          rcases Nat.lt_or_ge data.length (copyLen (data :: rest)) with hshort | hlong
          · rw [send_of_short hfree hshort] at h
            cases h
          · obtain ⟨frame, -, hsend⟩ := send_of_le input hstate hlong
            rw [hsend] at h
            split at h
            · -- the frame is with the kernel
              cases h
              have hcount : (if (SendCall.overXdp ⟨.ok (copyLen (data :: rest)), some (.xdp, frame.packet)⟩) = true ∧
                  input.completed = [] then 1 else 0) + (input.completed.take 1 ++ pool).length =
                    (b :: pool).length := by
                cases hcompleted : input.completed with
                | nil => simp [SendCall.overXdp, Nat.add_comm]
                | cons b' completed => simp [SendCall.overXdp]
              rw [← hfree] at hcount
              exact ⟨hcount.le, fun _ => ⟨hactive, hcount⟩⟩
            · -- the frame is free again
              cases h
              rw [hudp]
              have hcount : (freeFrames { s with state := some ⟨frame :: pool, []⟩ }).length =
                  (freeFrames s).length := by
                rw [hfree]
                rfl
              exact ⟨by omega, fun _ => ⟨hactive, by omega⟩⟩
            · cases h
              rw [hudp]
              exact accounts_inactive s s.udp

private theorem recv_accounts {input : RecvInput} {n : ℕ} {result : Except String (List UInt8)}
    (h : s.recv input n = .ok (result, s')) : Accounts s s' 0 := by
  unfold recv at h
  split at h
  · cases h
    exact accounts_refl s
  · split at h
    · rw [bind_eq_ok] at h
      obtain ⟨bytes, -, h⟩ := h
      cases h
      exact accounts_refl s
    · cases h
      exact accounts_refl s
    · cases h
      exact accounts_inactive s s.udp

private theorem updateRemote_accounts (s : XdpSocket) (connect : Except String Unit) (remote : SocketAddr) :
    Accounts s (s.updateRemote connect remote).2 0 := by
  unfold updateRemote
  split
  · exact accounts_refl s
  · exact accounts_refl s

private theorem step_accounts (hidle : Idle s) (hcall : call.KeepsPool) (h : s.step call = .ok (out, s')) :
    Accounts s s' (call.lost out) := by
  cases call with
  | send input buffers =>
      rw [step, bind_eq_ok] at h
      obtain ⟨⟨c, t⟩, hsend, h⟩ := h
      cases h
      exact send_accounts hidle hsend
  | recv input n =>
      rw [step, bind_eq_ok] at h
      obtain ⟨⟨result, t⟩, hrecv, h⟩ := h
      cases h
      exact recv_accounts hrecv
  | updateRemote connect remote =>
      cases h
      exact updateRemote_accounts s connect remote
  | reconfigure os bind remote => exact hcall.elim

private theorem step_udp (hfree : freeFrames s = []) (h : s.step call = .ok (out, s')) :
    ∀ c ∈ out, c.overXdp = false := by
  cases call with
  | send input buffers =>
      rw [step, send_of_no_frame hfree, ok_bind] at h
      cases h
      intro c hc
      cases hc
      exact sendUdp_overXdp input buffers
  | recv input n =>
      rw [step, bind_eq_ok] at h
      obtain ⟨result, -, h⟩ := h
      cases h
      exact fun c hc => by cases hc
  | updateRemote connect remote =>
      cases h
      exact fun c hc => by cases hc
  | reconfigure os bind remote =>
      cases h
      exact fun c hc => by cases hc

/-! ## Runs -/

private theorem run_accounts {calls : List Call} {outs : List (Option SendCall)} (hidle : Idle s)
    (hcalls : ∀ call ∈ calls, call.KeepsPool) (hrun : runAll step s calls = .ok (outs, s')) :
    Accounts s s' (lostFrames calls outs) := by
  induction calls generalizing s outs with
  | nil =>
      cases hrun
      exact accounts_refl _
  | cons call calls ih =>
      obtain ⟨out, t, outs', hstep, hrest, rfl⟩ := runAll_cons_eq_ok.mp hrun
      have hfirst := step_accounts hidle (hcalls call List.mem_cons_self) hstep
      have hlater := ih (step_idle hidle hstep) (fun c hc => hcalls c (List.mem_cons_of_mem _ hc)) hrest
      rw [lostFrames, List.zipWith_cons_cons, List.sum_cons]
      exact hfirst.trans hlater

private theorem run_udp {calls : List Call} {outs : List (Option SendCall)} (hidle : Idle s) (hfree : freeFrames s = [])
    (hcalls : ∀ call ∈ calls, call.KeepsPool) (hrun : runAll step s calls = .ok (outs, s')) :
    ∀ out ∈ outs, ∀ c ∈ out, c.overXdp = false := by
  induction calls generalizing s outs with
  | nil =>
      cases hrun
      exact fun out hout => absurd hout List.not_mem_nil
  | cons call calls ih =>
      obtain ⟨out, t, outs', hstep, hrest, rfl⟩ := runAll_cons_eq_ok.mp hrun
      have hle := (step_accounts hidle (hcalls call List.mem_cons_self) hstep).1
      have hnone : freeFrames t = [] := by
        rw [hfree, List.length_nil] at hle
        exact List.length_eq_zero_iff.mp (by omega)
      intro o ho
      rcases List.mem_cons.mp ho with heq | ho
      · rw [heq]
        exact step_udp hfree hstep
      · exact ih (step_idle hidle hstep) hnone (fun c hc => hcalls c (List.mem_cons_of_mem _ hc)) hrest o ho

/-- Until it is set up again, a socket that is active has all its frames but those that were lost.  When as many were
lost as it was opened with, no later datagram goes over XDP, and a send leaves the socket as it is. -/
theorem frames_run_out {s₀ : XdpSocket} (hopen : Opened s₀) {calls more : List Call}
    (hcalls : ∀ call ∈ calls ++ more, call.KeepsPool) {outs outs' : List (Option SendCall)}
    (hrun : runAll step s₀ calls = .ok (outs, s)) (hmore : runAll step s more = .ok (outs', s')) :
    lostFrames calls outs ≤ (freeFrames s₀).length ∧
      (s.isActive = true → lostFrames calls outs + (freeFrames s).length = (freeFrames s₀).length) ∧
      (lostFrames calls outs = (freeFrames s₀).length → (∀ out ∈ outs', ∀ c ∈ out, c.overXdp = false) ∧
        ∀ input buffers, s'.send input buffers = .ok (sendUdp input buffers, s')) := by
  have hfirst : ∀ call ∈ calls, call.KeepsPool := fun call hcall => hcalls call (List.mem_append_left _ hcall)
  have hlater : ∀ call ∈ more, call.KeepsPool := fun call hcall => hcalls call (List.mem_append_right _ hcall)
  obtain ⟨hle, hactive⟩ := run_accounts hopen.idle hfirst hrun
  refine ⟨by omega, fun h => (hactive h).2, fun hlost => ?_⟩
  have hnone : freeFrames s = [] := List.length_eq_zero_iff.mp (by omega)
  have hidle := run_idle hopen hrun
  have hstill : freeFrames s' = [] := by
    have hshrinks := (run_accounts hidle hlater hmore).1
    rw [hnone, List.length_nil] at hshrinks
    exact List.length_eq_zero_iff.mp (by omega)
  exact ⟨run_udp hidle hnone hlater hmore, fun input buffers => send_of_no_frame hstill⟩

def emptySocket : XdpSocket := ⟨⟨3, loopback 4000, loopback 4433⟩, some ⟨[], []⟩⟩

/-- The socket with one frame sends one datagram over XDP, and the next one goes the other way though the socket is
active. -/
theorem frames_run_out_one_frame : ∃ outs s outs' s',
    runAll step (oneFrameSocket 4433) [.send sendsAll [[1, 2]]] = .ok (outs, s) ∧ s.isActive = true ∧
    runAll step s [.send sendsAll [[3, 4]]] = .ok (outs', s') ∧ outs'.length = 1 ∧
    (∀ out ∈ outs', ∀ c ∈ out, c.overXdp = false) ∧ s'.isActive = true := by
  obtain ⟨frame, -, hsend⟩ := @send_of_le (oneFrameSocket 4433) [1, 2] [] _ _ sendsAll rfl (by decide)
  have hstep : (oneFrameSocket 4433).step (.send sendsAll [[1, 2]]) =
      .ok (some ⟨.ok 2, some (.xdp, frame.packet)⟩, emptySocket) := by
    rw [step, hsend]
    rfl
  have hrun : runAll step (oneFrameSocket 4433) [.send sendsAll [[1, 2]]] = _ := runAll_cons hstep rfl
  have hnext : emptySocket.step (.send sendsAll [[3, 4]]) = .ok (some (sendUdp sendsAll [[3, 4]]), emptySocket) := by
    rw [step, send_of_no_frame rfl]
    rfl
  have hmore : runAll step emptySocket [.send sendsAll [[3, 4]]] = _ := runAll_cons hnext rfl
  obtain ⟨hudp, -⟩ := (frames_run_out (oneFrameSocket_opened 4433) (by simp [Call.KeepsPool]) hrun hmore).2.2 rfl
  exact ⟨_, emptySocket, _, emptySocket, hrun, rfl, hmore, rfl, hudp, rfl⟩

end QuicFuscate.Core.XdpSocket
