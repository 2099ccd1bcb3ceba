import QuicFuscate.Core.XdpSocket

/-!
# The two ways of a datagram

The UDP path gathers all buffers.  The fast path copies from the first buffer into a frame, so that both ways
agree exactly if the first buffer is the whole datagram and fits into a frame.
-/

namespace QuicFuscate.Core.XdpSocket

open Framework

variable {s s' : XdpSocket} {input : SendInput} {buffers : List (List UInt8)}

def freeFrames (s : XdpSocket) : List BufMmap :=
  match s.state with
  | none => []
  | some state => state.pool

/-- No frame is on its way. -/
def Idle (s : XdpSocket) : Prop := ∀ state ∈ s.state, state.pending = []

/-! ## Frames -/

private theorem fill_of_le (b : BufMmap) {bytes : List UInt8} (h : bytes.length ≤ 2048) :
    ∃ b', b.fill bytes = .ok b' ∧ b'.data = bytes ++ b.data.drop bytes.length := by
  have hcopy : copyFront b.data bytes = .ok (bytes ++ b.data.drop bytes.length) :=
    copyFront_of_le (by rw [b.size]; exact h)
  unfold BufMmap.fill
  split
  · rename_i data hdata
    rw [hcopy] at hdata
    cases hdata
    exact ⟨_, rfl, rfl⟩
  · rename_i e herror
    rw [hcopy] at herror
    cases herror

private theorem packet_setLen {b : BufMmap} {bytes rest : List UInt8} (hb : b.data = bytes ++ rest)
    (h : bytes.length ≤ 2048) :
    (b.setLen (UInt16.ofNat bytes.length)).packet = bytes := by
  rw [BufMmap.packet, BufMmap.setLen, UInt16.toNat_ofNat_of_lt' (h.trans_lt (by decide)), hb, List.take_left]

/-! ## What a send does -/

theorem send_of_no_frame (h : freeFrames s = []) : s.send input buffers = .ok (sendUdp input buffers, s) := by
  unfold send
  unfold freeFrames at h
  cases hs : s.state with
  | none => rfl
  | some state =>
      rw [hs] at h
      dsimp only at h ⊢
      rw [h]
      rfl

variable {data : List UInt8} {rest : List (List UInt8)} {b : BufMmap} {pool : List BufMmap}

/-- How much the fast path copies. -/
def copyLen (buffers : List (List UInt8)) : ℕ := min (buffers.map List.length).sum 2048

private theorem exists_state (h : freeFrames s = b :: pool) : ∃ pending, s.state = some ⟨b :: pool, pending⟩ := by
  unfold freeFrames at h
  cases hs : s.state with
  | none =>
      rw [hs] at h
      cases h
  | some state =>
      rw [hs] at h
      exact ⟨state.pending, by rw [← h]⟩

theorem Idle.state_eq (hidle : Idle s) (h : freeFrames s = b :: pool) : s.state = some ⟨b :: pool, []⟩ := by
  obtain ⟨pending, hstate⟩ := exists_state h
  have hpending : pending = [] := hidle ⟨b :: pool, pending⟩ (by rw [hstate]; rfl)
  rw [hstate, hpending]

theorem send_of_short (hs : freeFrames s = b :: pool) (hshort : data.length < copyLen (data :: rest)) :
    s.send input (data :: rest) = .error .indexOutOfBounds := by
  obtain ⟨pending, hstate⟩ := exists_state hs
  have hread : readAt (data :: rest) 0 = .ok data := rfl
  have hslice : sliceOf data 0 (min ((data :: rest).map List.length).sum b.data.length) = .error .indexOutOfBounds := by
    rw [sliceOf, b.size, if_neg]
    exact fun h => absurd h.2 (by unfold copyLen at hshort; omega)
  unfold send
  rw [hstate]
  dsimp only
  rw [hread, ok_bind, hslice, error_bind]

theorem send_of_le (input : SendInput) (hs : s.state = some ⟨b :: pool, []⟩)
    (hlong : copyLen (data :: rest) ≤ data.length) :
    ∃ frame : BufMmap, frame.packet = data.take (copyLen (data :: rest)) ∧ s.send input (data :: rest) =
      match input.trySend with
      | .ok true => .ok (⟨.ok (copyLen (data :: rest)), some (.xdp, frame.packet)⟩,
          { s with state := some ⟨input.completed.take 1 ++ pool, []⟩ })
      | .ok false => .ok (sendUdp input (data :: rest), { s with state := some ⟨frame :: pool, []⟩ })
      | .error _ => .ok (sendUdp input (data :: rest), { s with state := none }) := by
  have hread : readAt (data :: rest) 0 = .ok data := rfl
  have hmin : min ((data :: rest).map List.length).sum b.data.length = copyLen (data :: rest) := by
    rw [b.size, copyLen]
  have hslice : sliceOf data 0 (copyLen (data :: rest)) = .ok (data.take (copyLen (data :: rest))) := by
    rw [sliceOf_of_le (Nat.zero_le _) hlong, List.drop_zero]
  have hlength : (data.take (copyLen (data :: rest))).length = copyLen (data :: rest) := by
    rw [List.length_take]
    exact min_eq_left hlong
  have hfits : copyLen (data :: rest) ≤ 2048 := min_le_right _ _
  obtain ⟨b', hfill, hdata⟩ := fill_of_le b (hlength.trans_le hfits)
  have hpacket := packet_setLen hdata (hlength.trans_le hfits)
  rw [hlength] at hpacket
  refine ⟨b'.setLen (UInt16.ofNat (copyLen (data :: rest))), hpacket, ?_⟩
  unfold send
  rw [hs]
  dsimp only
  rw [hread, ok_bind, hmin, hslice, ok_bind, hfill, ok_bind]
  cases hsend : input.trySend with
  | ok sent =>
      cases sent with
      | true => simp [trySend, hsend, Except.toOption]
      | false => simp [trySend, hsend, Except.toOption, Except.toBool]
  | error e => simp [trySend, hsend, Except.toOption, Except.toBool]

/-! ## Calls on a socket -/

theorem connected_eq_ok {os : Opening} {bind remote : SocketAddr} {udp : UdpSocket} :
    UdpSocket.connected os bind remote = .ok udp ↔
      ∃ fd, (os.bind = .ok fd ∧ os.connect = .ok () ∧ os.setNonblocking = .ok ()) ∧ udp = ⟨fd, bind, remote⟩ := by
  simp only [UdpSocket.connected, bind_eq_ok]
  constructor
  · rintro ⟨fd, hbind, u, hconnect, u', hnonblocking, h⟩
    cases h
    exact ⟨fd, ⟨hbind, hconnect, hnonblocking⟩, rfl⟩
  · rintro ⟨fd, ⟨hbind, hconnect, hnonblocking⟩, rfl⟩
    exact ⟨fd, hbind, (), hconnect, (), hnonblocking, rfl⟩

private theorem initState_pending {os : Opening} {iface : String} {state : XdpState}
    (h : initState os iface = .ok state) :
    state.pending = [] := by
  rw [initState, bind_eq_ok] at h
  obtain ⟨bufs, -, h⟩ := h
  cases h
  rfl

theorem send_keeps {call : SendCall} (hidle : Idle s) (h : s.send input buffers = .ok (call, s')) :
    s'.udp = s.udp ∧ Idle s' := by
  cases hfree : freeFrames s with
  | nil =>
      rw [send_of_no_frame hfree] at h
      cases h
      exact ⟨rfl, hidle⟩
  | cons b pool =>
      have hstate := hidle.state_eq hfree
      cases buffers with
      | nil =>
          unfold send at h
          rw [hstate] at h
          cases h
      | cons data rest =>
          rcases Nat.lt_or_ge data.length (copyLen (data :: rest)) with hshort | hlong
          · rw [send_of_short hfree hshort] at h
            cases h
          · obtain ⟨frame, -, hsend⟩ := send_of_le input hstate hlong
            rw [hsend] at h
            split at h
            · cases h
              exact ⟨rfl, fun state hs => by cases hs; rfl⟩
            · cases h
              exact ⟨rfl, fun state hs => by cases hs; rfl⟩
            · cases h
              exact ⟨rfl, fun state hs => by cases hs⟩

theorem recv_keeps {input : RecvInput} {n : ℕ} {result : Except String (List UInt8)} (hidle : Idle s)
    (h : s.recv input n = .ok (result, s')) : s'.udp = s.udp ∧ Idle s' := by
  unfold recv at h
  split at h
  · cases h
    exact ⟨rfl, hidle⟩
  · split at h
    · rw [bind_eq_ok] at h
      obtain ⟨bytes, -, h⟩ := h
      cases h
      exact ⟨rfl, hidle⟩
    · cases h
      exact ⟨rfl, hidle⟩
    · cases h
      exact ⟨rfl, fun state hs => by cases hs⟩

theorem reconfigure_idle (s : XdpSocket) (os : Opening) (bind remote : SocketAddr) :
    Idle (s.reconfigure os bind remote).2 := by
  unfold reconfigure
  intro state hstate
  dsimp only at hstate
  split at hstate
  · cases hstate
  · split at hstate
    · rename_i hinit
      cases hstate
      exact initState_pending hinit
    · cases hstate

theorem updateRemote_idle {connect : Except String Unit} {remote : SocketAddr} (hidle : Idle s) :
    Idle (s.updateRemote connect remote).2 := by
  unfold updateRemote
  split
  · exact hidle
  · exact hidle

theorem newUdp_eq_ok {os : Opening} {bind remote : SocketAddr} (h : newUdp os bind remote = .ok s) :
    UdpSocket.connected os bind remote = .ok s.udp ∧ s.state = none := by
  rw [newUdp, bind_eq_ok] at h
  obtain ⟨udp, hudp, h⟩ := h
  cases h
  exact ⟨hudp, rfl⟩

theorem new_eq_ok {os : Opening} {bind remote : SocketAddr} (h : new os bind remote = .ok s) :
    UdpSocket.connected os bind remote = .ok s.udp ∧ Idle s := by
  rw [new, bind_eq_ok] at h
  obtain ⟨udp, hudp, h⟩ := h
  split at h
  · rename_i hinit
    cases h
    refine ⟨hudp, fun state hs => ?_⟩
    cases hs
    exact initState_pending hinit
  · cases h
    exact ⟨hudp, fun state hs => by cases hs⟩

/-! ## Runs -/

inductive Call
  | send (input : SendInput) (buffers : List (List UInt8))
  | recv (input : RecvInput) (n : ℕ)
  | updateRemote (connect : Except String Unit) (remote : SocketAddr)
  | reconfigure (os : Opening) (bind remote : SocketAddr)

def step (s : XdpSocket) : Call → Checked (Option SendCall × XdpSocket)
  | .send input buffers => do
      let (call, s) ← s.send input buffers
      return (some call, s)
  | .recv input n => do
      let (_, s) ← s.recv input n
      return (none, s)
  | .updateRemote connect remote => return (none, (s.updateRemote connect remote).2)
  | .reconfigure os bind remote => return (none, (s.reconfigure os bind remote).2)

/-- A socket that has just been opened. -/
def Opened (s : XdpSocket) : Prop :=
  ∃ os bind remote, new os bind remote = .ok s ∨ newUdp os bind remote = .ok s

theorem Opened.idle (h : Opened s) : Idle s := by
  obtain ⟨os, bind, remote, h | h⟩ := h
  · exact (new_eq_ok h).2
  · intro state hstate
    rw [(newUdp_eq_ok h).2] at hstate
    cases hstate

theorem step_idle {call : Call} {out : Option SendCall} (hidle : Idle s) (h : s.step call = .ok (out, s')) :
    Idle s' := by
  cases call with
  | send input buffers =>
      rw [step, bind_eq_ok] at h
      obtain ⟨⟨call, t⟩, hsend, h⟩ := h
      cases h
      exact (send_keeps hidle hsend).2
  | recv input n =>
      rw [step, bind_eq_ok] at h
      obtain ⟨⟨result, t⟩, hrecv, h⟩ := h
      cases h
      exact (recv_keeps hidle hrecv).2
  | updateRemote connect remote =>
      cases h
      exact updateRemote_idle hidle
  | reconfigure os bind remote =>
      cases h
      exact reconfigure_idle s os bind remote

theorem run_idle {s₀ : XdpSocket} {calls : List Call} {outs : List (Option SendCall)} (hopen : Opened s₀)
    (hrun : runAll step s₀ calls = .ok (outs, s)) : Idle s :=
  runAll_invariant Idle hrun hopen.idle fun _ _ _ _ hidle h => step_idle hidle h

/-! ## The datagram -/

/-- All buffers leave in one datagram over XDP, or the call is a send on the UDP socket. -/
def SendsDatagram (s : XdpSocket) (input : SendInput) (buffers : List (List UInt8)) : Prop :=
  ∃ call s', s.send input buffers = .ok (call, s') ∧
    (call = ⟨.ok (buffers.map List.length).sum, some (.xdp, buffers.flatten)⟩ ∨ call = sendUdp input buffers)

private theorem flatten_of_length (h : data.length = ((data :: rest).map List.length).sum) :
    (data :: rest).flatten = data := by
  have hrest : rest.flatten.length = 0 := by
    rw [List.length_flatten]
    rw [List.map_cons, List.sum_cons] at h
    omega
  rw [List.flatten_cons, List.length_eq_zero_iff.mp hrest, List.append_nil]

private theorem sendUdp_ne_xdp {n : ℕ} {bytes : List UInt8} :
    (⟨.ok n, some (.xdp, bytes)⟩ : SendCall) ≠ sendUdp input buffers := by
  unfold sendUdp
  split
  · simp
  · simp

private theorem sendsDatagram_of_sent (hs : s.state = some ⟨b :: pool, []⟩) (hsent : input.trySend = .ok true)
    (hlong : copyLen (data :: rest) ≤ data.length) : SendsDatagram s input (data :: rest) ↔
      data.length = ((data :: rest).map List.length).sum ∧ ((data :: rest).map List.length).sum ≤ 2048 := by
  obtain ⟨frame, hpacket, hsend⟩ := send_of_le input hs hlong
  rw [hsent] at hsend
  rw [hpacket] at hsend
  have hle : data.length ≤ ((data :: rest).map List.length).sum := by simp
  constructor
  · rintro ⟨call, s', h, hcall | hcall⟩
    · rw [hsend] at h
      cases h
      simp only [SendCall.mk.injEq, Except.ok.injEq] at hcall
      have hlen := hcall.1
      unfold copyLen at hlen hlong
      omega
    · rw [hsend] at h
      cases h
      exact absurd hcall sendUdp_ne_xdp
  · rintro ⟨hlength, hfits⟩
    have hcopy : copyLen (data :: rest) = ((data :: rest).map List.length).sum := min_eq_left hfits
    refine ⟨_, _, hsend, .inl ?_⟩
    rw [hcopy, flatten_of_length hlength, ← hlength, List.take_length]

/-- A frame that does not leave is put back, and the datagram goes the other way. -/
private theorem sendsDatagram_of_not_sent (hs : s.state = some ⟨b :: pool, []⟩) (hsent : input.trySend ≠ .ok true)
    (hlong : copyLen (data :: rest) ≤ data.length) : SendsDatagram s input (data :: rest) := by
  obtain ⟨frame, -, hsend⟩ := send_of_le input hs hlong
  split at hsend
  · exact absurd ‹_› hsent
  · exact ⟨_, _, hsend, .inr rfl⟩
  · exact ⟨_, _, hsend, .inr rfl⟩

/-- On every socket in use, the two paths send the same datagram exactly if there is no free frame, or the first
buffer is the whole datagram and fits into a frame, or the first buffer fills the frame and the frame is not sent. -/
theorem send_sameDatagram_iff {s₀ : XdpSocket} {calls : List Call} {outs : List (Option SendCall)} (hopen : Opened s₀)
    (hrun : runAll step s₀ calls = .ok (outs, s)) (input : SendInput) (data : List UInt8) (rest : List (List UInt8)) :
    SendsDatagram s input (data :: rest) ↔
      freeFrames s = [] ∨
      (data.length = ((data :: rest).map List.length).sum ∧ ((data :: rest).map List.length).sum ≤ 2048) ∨
      (input.trySend ≠ .ok true ∧ 2048 < ((data :: rest).map List.length).sum ∧ 2048 ≤ data.length) := by
  have hle : data.length ≤ ((data :: rest).map List.length).sum := by simp
  cases hfree : freeFrames s with
  | nil => simpa using ⟨_, _, send_of_no_frame hfree, Or.inr rfl⟩
  | cons b pool =>
      have hstate := (run_idle hopen hrun).state_eq hfree
      simp only [reduceCtorEq, false_or]
      rcases Nat.lt_or_ge data.length (copyLen (data :: rest)) with hshort | hlong
      · -- the call aborts, and no alternative holds
        constructor
        · rintro ⟨call, s', h, -⟩
          rw [send_of_short hfree hshort] at h
          cases h
        · unfold copyLen at hshort
          omega
      · by_cases hsent : input.trySend = .ok true
        · rw [sendsDatagram_of_sent hstate hsent hlong]
          simp [hsent]
        · have hsends : SendsDatagram s input (data :: rest) := sendsDatagram_of_not_sent hstate hsent hlong
          unfold copyLen at hlong
          simp only [hsends, true_iff, hsent, ne_eq, not_false_eq_true, true_and]
          omega

/-! ## A socket with one frame -/

def loopback (port : UInt16) : SocketAddr := ⟨.v4 0x7f000001, port⟩

/-- A kernel that grants one frame. -/
def oneFrame : Opening where
  xdpIface := none
  bind := .ok 3
  connect := .ok ()
  setNonblocking := .ok ()
  frames _ := .ok [⟨List.replicate 2048 0, List.length_replicate, 0⟩]

def oneFrameSocket (port : UInt16) : XdpSocket :=
  ⟨⟨3, loopback 4000, loopback port⟩, some ⟨[⟨List.replicate 2048 0, List.length_replicate, 0⟩], []⟩⟩

theorem oneFrameSocket_opened (port : UInt16) : Opened (oneFrameSocket port) :=
  ⟨oneFrame, loopback 4000, loopback port, .inl rfl⟩

def sendsAll : SendInput := ⟨.ok true, [], .ok ()⟩

def sendsNone : SendInput := ⟨.ok false, [], .ok ()⟩

/-- A small buffer leaves over XDP with an empty one behind it, and a buffer that is longer than a frame
leaves over UDP when the crate does not send the frame. -/
theorem send_sameDatagram_iff_small_or_refused : SendsDatagram (oneFrameSocket 5000) sendsAll [[1, 2], []] ∧
    SendsDatagram (oneFrameSocket 5000) sendsNone [List.replicate 2049 7, [8]] := by
  have hrun : runAll step (oneFrameSocket 4433) [.updateRemote (.ok ()) (loopback 5000)] =
      .ok ([none], oneFrameSocket 5000) := rfl
  have hopen := oneFrameSocket_opened 4433
  refine ⟨(send_sameDatagram_iff hopen hrun sendsAll [1, 2] [[]]).mpr (.inr (.inl (by decide))),
    (send_sameDatagram_iff hopen hrun sendsNone (List.replicate 2049 7) [[8]]).mpr (.inr (.inr ⟨?_, ?_, ?_⟩))⟩
  · intro h
    cases h
  · rw [List.map_cons, List.length_replicate]
    decide
  · rw [List.length_replicate]
    decide

/-- Two buffers abort the fast path, and of a buffer longer than a frame only the front is sent. -/
theorem send_not_sameDatagram : Opened (oneFrameSocket 4433) ∧
    ¬ SendsDatagram (oneFrameSocket 4433) sendsAll [[1], [2]] ∧
    ¬ SendsDatagram (oneFrameSocket 4433) sendsAll [List.replicate 2049 0] := by
  refine ⟨oneFrameSocket_opened 4433, ?_, ?_⟩
  · rintro ⟨call, s', h, -⟩
    rw [send_of_short rfl (by decide)] at h
    cases h
  · have htotal : ([List.replicate 2049 (0 : UInt8)].map List.length).sum = 2049 := by
      rw [List.map_cons, List.length_replicate, List.map_nil, List.sum_singleton]
    have hlong : copyLen [List.replicate 2049 0] ≤ (List.replicate 2049 (0 : UInt8)).length := by
      rw [copyLen, htotal, List.length_replicate]
      decide
    rw [sendsDatagram_of_sent rfl rfl hlong, htotal]
    omega

end QuicFuscate.Core.XdpSocket
