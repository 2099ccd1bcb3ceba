import QuicFuscate.Core.Migration
import QuicFuscate.Core.Proofs.XdpSocket
import QuicFuscate.Framework.GuardedRun

/-!
# Failed migrations

A migration that the library refuses has already replaced the socket.  It leaves the connection as it was exactly if
there is no socket and none is created; in runs all of whose failed migrations are such, packets only go to peers
that the library has accepted.
-/

namespace QuicFuscate.Core

open Framework Fec

/-! ## Creating a socket -/

def Opening.Opens (os : Opening) : Prop :=
  ∃ fd, os.bind = .ok fd ∧ os.connect = .ok () ∧ os.setNonblocking = .ok ()

variable {os : Creation} {bind remote : SocketAddr} {m : OptimizationManager} {xdp : XdpSocket}

private theorem exists_connected (os : Opening) (bind remote : SocketAddr) :
    (∃ udp, UdpSocket.connected os bind remote = .ok udp) ↔ os.Opens := by
  constructor
  · rintro ⟨udp, h⟩
    obtain ⟨fd, hfd, -⟩ := XdpSocket.connected_eq_ok.mp h
    exact ⟨fd, hfd⟩
  · rintro ⟨fd, hfd⟩
    exact ⟨_, XdpSocket.connected_eq_ok.mpr ⟨fd, hfd, rfl⟩⟩

private theorem exists_new (os : Opening) (bind remote : SocketAddr) :
    (∃ xdp, XdpSocket.new os bind remote = .ok xdp) ↔ os.Opens := by
  rw [← exists_connected os bind remote]
  constructor
  · rintro ⟨xdp, h⟩
    exact ⟨xdp.udp, (XdpSocket.new_eq_ok h).1⟩
  · rintro ⟨udp, h⟩
    rw [XdpSocket.new, h]
    cases hinit : initState os (inferIface os bind) with
    | ok state => exact ⟨_, rfl⟩
    | error e => exact ⟨_, rfl⟩

private theorem exists_newUdp (os : Opening) (bind remote : SocketAddr) :
    (∃ xdp, XdpSocket.newUdp os bind remote = .ok xdp) ↔ os.Opens := by
  rw [← exists_connected os bind remote]
  constructor
  · rintro ⟨xdp, h⟩
    exact ⟨xdp.udp, (XdpSocket.newUdp_eq_ok h).1⟩
  · rintro ⟨udp, h⟩
    rw [XdpSocket.newUdp, h]
    exact ⟨_, rfl⟩

private theorem createXdpSocket_eq_some (h : m.createXdpSocket os bind remote = some xdp) :
    xdp.Idle ∧ xdp.udp.remote = remote ∧ (os.xdp.bind = .ok xdp.udp.fd ∨ os.udp.bind = .ok xdp.udp.fd) := by
  unfold OptimizationManager.createXdpSocket at h
  split at h
  · cases h
  · split at h
    · rename_i sock hnew
      cases h
      obtain ⟨hudp, hidle⟩ := XdpSocket.new_eq_ok hnew
      obtain ⟨fd, ⟨hbind, -⟩, hsock⟩ := XdpSocket.connected_eq_ok.mp hudp
      exact ⟨hidle, by rw [hsock], .inl (by rw [hsock, hbind])⟩
    · cases hnew : XdpSocket.newUdp os.udp bind remote with
      | error e =>
          rw [hnew] at h
          cases h
      | ok sock =>
          rw [hnew] at h
          cases h
          obtain ⟨hudp, hstate⟩ := XdpSocket.newUdp_eq_ok hnew
          obtain ⟨fd, ⟨hbind, -⟩, hsock⟩ := XdpSocket.connected_eq_ok.mp hudp
          exact ⟨by simp [XdpSocket.Idle, hstate], by rw [hsock], .inr (by rw [hsock, hbind])⟩

def Creates (m : OptimizationManager) (os : Creation) : Prop :=
  m.xdpAvailable = true ∧ m.useXdp = true ∧ (os.xdp.Opens ∨ os.udp.Opens)

private theorem createXdpSocket_eq_none_iff : m.createXdpSocket os bind remote = none ↔ ¬ Creates m os := by
  unfold OptimizationManager.createXdpSocket Creates
  cases m.xdpAvailable with
  | false => simp
  | true =>
      cases m.useXdp with
      | false => simp
      | true =>
          rw [← exists_new os.xdp bind remote, ← exists_newUdp os.udp bind remote]
          cases hnew : XdpSocket.new os.xdp bind remote with
          | ok sock => simp
          | error e => cases XdpSocket.newUdp os.udp bind remote <;> simp [Except.toOption]

/-! ## The steps of a path -/

variable {c c' : ConnectionPath}

/-- The socket of a path, if any, is idle and goes to an address with a property. -/
def ConnectionPath.SocketTo (c : ConnectionPath) (P : SocketAddr → Prop) : Prop :=
  ∀ xdp ∈ c.xdpSocket, xdp.Idle ∧ P xdp.udp.remote

/-- The peer that an event reports to be in use. -/
def PathEvent.accepted : PathEvent → List SocketAddr
  | .validated _ peer => [peer]
  | .peerMigrated _ peer => [peer]
  | .new _ _ => []
  | .failedValidation _ _ => []
  | .closed _ _ => []
  | .reusedSourceConnectionId _ _ _ => []

namespace ConnectionPath

variable {P Q : SocketAddr → Prop}

theorem SocketTo.mono (h : c.SocketTo P) (hPQ : ∀ a, P a → Q a) : c.SocketTo Q :=
  fun xdp hxdp => ⟨(h xdp hxdp).1, hPQ _ (h xdp hxdp).2⟩

private theorem socketTo_create (h : c.xdpSocket = m.createXdpSocket os bind remote) (hP : P remote) :
    c.SocketTo P := by
  intro xdp hxdp
  rw [h] at hxdp
  obtain ⟨hidle, hremote, -⟩ := createXdpSocket_eq_some hxdp
  exact ⟨hidle, hremote ▸ hP⟩

private theorem migrateConnection_none {input : MigrationInput} {newPeer : SocketAddr}
    (h : ¬ Creates c.optimizationManager input.os) :
    (c.migrateConnection input newPeer).2 = { c with xdpSocket := none } := by
  unfold migrateConnection
  dsimp only
  rw [createXdpSocket_eq_none_iff.mpr h]

private theorem migrateConnection_some {input : MigrationInput} (newPeer : SocketAddr)
    (h : Creates c.optimizationManager input.os) :
    ∃ xdp, (c.migrateConnection input newPeer).2 = { c with xdpSocket := some xdp } ∧ xdp.Idle ∧
      xdp.udp.remote = newPeer ∧
      (input.os.xdp.bind = .ok xdp.udp.fd ∨ input.os.udp.bind = .ok xdp.udp.fd) := by
  have hcreate : c.optimizationManager.createXdpSocket input.os c.localAddr newPeer ≠ none :=
    fun hnone => createXdpSocket_eq_none_iff.mp hnone h
  obtain ⟨xdp, hxdp⟩ := Option.ne_none_iff_exists'.mp hcreate
  obtain ⟨hidle, hremote, hfd⟩ := createXdpSocket_eq_some hxdp
  unfold migrateConnection
  dsimp only
  rw [hxdp]
  refine ⟨_, rfl, XdpSocket.updateRemote_idle hidle, ?_⟩
  -- the socket is connected to the new peer already
  unfold XdpSocket.updateRemote
  split
  · exact ⟨rfl, hfd⟩
  · exact ⟨hremote, hfd⟩

private theorem migrateConnection_socketTo {input : MigrationInput} {newPeer : SocketAddr} (hP : P newPeer) :
    (c.migrateConnection input newPeer).2.SocketTo P := by
  by_cases hcreates : Creates c.optimizationManager input.os
  · obtain ⟨xdp, hpath, hidle, hremote, -⟩ := migrateConnection_some newPeer hcreates
    rw [hpath]
    intro xdp' hxdp'
    cases hxdp'
    exact ⟨hidle, hremote ▸ hP⟩
  · rw [migrateConnection_none hcreates]
    intro xdp' hxdp'
    cases hxdp'

private theorem reconfigure_remote {xdp' : XdpSocket} {os : Opening} {addr peer : SocketAddr}
    (h : xdp.reconfigure os addr peer = (.ok (), xdp')) : xdp'.udp.remote = peer := by
  unfold XdpSocket.reconfigure at h
  dsimp only at h
  split at h
  · cases h
  · rename_i udp hudp
    obtain ⟨fd, -, rfl⟩ := XdpSocket.connected_eq_ok.mp hudp
    split at h
    · cases h
      rfl
    · cases h
      rfl

private theorem follow_socketTo {os : Following} {addr peer : SocketAddr} (hP : P peer) :
    (c.follow os addr peer).SocketTo P := by
  unfold follow
  dsimp only
  split
  · rename_i xdp hxdp
    split
    · rename_i xdp' hreconfigure
      intro sock hsock
      cases hsock
      have hidle := XdpSocket.reconfigure_idle xdp os.reconfigure addr peer
      rw [hreconfigure] at hidle
      exact ⟨hidle, reconfigure_remote hreconfigure ▸ hP⟩
    · exact socketTo_create rfl hP
  · exact socketTo_create rfl hP

private theorem onPathEvent_socketTo {os : Following} {event : PathEvent} (h : c.SocketTo P)
    (hP : ∀ a ∈ event.accepted, P a) :
    (c.onPathEvent os event).SocketTo P := by
  cases event with
  | validated addr peer => exact follow_socketTo (hP peer (by simp [PathEvent.accepted]))
  | peerMigrated addr peer => exact follow_socketTo (hP peer (by simp [PathEvent.accepted]))
  | new addr peer => exact h
  | failedValidation addr peer => exact h
  | closed addr peer => exact h
  | reusedSourceConnectionId seq old new => exact h

/-- Over all events, the socket only moves to peers that were reported. -/
private theorem updateState_socketTo {events : List (PathEvent × Following)} (h : c.SocketTo P)
    (hP : ∀ e ∈ events, ∀ a ∈ e.1.accepted, P a) : (c.updateState events).SocketTo P := by
  induction events generalizing c with
  | nil => exact h
  | cons e events ih =>
      rw [updateState, List.foldl_cons]
      apply ih (onPathEvent_socketTo h (hP e (by simp)))
      intro e' he'
      exact hP e' (by simp [he'])

private theorem transmit_eq_ok {caller : SocketAddr} {input : SendInput} {os : XdpSocket.SendInput} {packet : Packet}
    {out : Transmission} (h : c.transmit caller input os packet = .ok (out, c')) (hsocket : c.SocketTo P)
    (hP : P caller) :
    c'.SocketTo P ∧ ∀ a ∈ out.sent, P a.1 := by
  unfold transmit at h
  split at h
  · rename_i xdp hxdp
    simp only [bind_eq_ok, pure_eq_ok] at h
    obtain ⟨data, -, bytes, -, ⟨call, xdp'⟩, hsend, result, -, h⟩ := h
    cases h
    obtain ⟨hidle, hremote⟩ := hsocket xdp hxdp
    obtain ⟨hudp, hidle'⟩ := XdpSocket.send_keeps hidle hsend
    rw [← hudp] at hremote
    constructor
    · intro sock hsock
      cases hsock
      exact ⟨hidle', hremote⟩
    · intro a ha
      obtain ⟨t, -, rfl⟩ := Option.map_eq_some_iff.mp ha
      exact hremote
  · simp only [bind_eq_ok, pure_eq_ok] at h
    obtain ⟨result, -, h⟩ := h
    cases h
    refine ⟨hsocket, fun a ha => ?_⟩
    obtain ⟨t, -, rfl⟩ := Option.map_eq_some_iff.mp ha
    exact hP

private theorem receive_socketTo {os : XdpSocket.RecvInput} {n : ℕ} (h : c.receive os n = .ok c')
    (hsocket : c.SocketTo P) :
    c'.SocketTo P := by
  unfold receive at h
  split at h
  · rename_i xdp hxdp
    simp only [bind_eq_ok, pure_eq_ok] at h
    obtain ⟨⟨result, xdp'⟩, hrecv, h⟩ := h
    cases h
    obtain ⟨hidle, hremote⟩ := hsocket xdp hxdp
    obtain ⟨hudp, hidle'⟩ := XdpSocket.recv_keeps hidle hrecv
    intro sock hsock
    cases hsock
    exact ⟨hidle', hudp ▸ hremote⟩
  · cases h
    exact hsocket

end ConnectionPath

/-- A connection in a program: where the program sends what is left to it, and the peers that the library has
accepted. -/
structure Session where
  path : ConnectionPath
  caller : SocketAddr
  accepted : List SocketAddr

namespace Session

/-! ## Runs -/

inductive Call
  | migrate (input : MigrationInput) (newPeer : SocketAddr)
  | send (input : SendInput) (os : XdpSocket.SendInput) (packet : Packet)
  | recv (os : XdpSocket.RecvInput) (n : ℕ)
  | updateState (events : List (PathEvent × Following))

/-- The program sends to the address that it opened the connection to. -/
def new (m : OptimizationManager) (os : Creation) (localAddr remoteAddr : SocketAddr) : Session :=
  ⟨.new m os localAddr remoteAddr, remoteAddr, [remoteAddr]⟩

def partner (s : Session) : SocketAddr :=
  match s.path.xdpSocket with
  | some xdp => xdp.udp.remote
  | none => s.caller

def step (s : Session) : Call → Session → Prop
  | .migrate input newPeer, t =>
      t = { s with
        path := (s.path.migrateConnection input newPeer).2
        accepted := if input.migrate.toBool then newPeer :: s.accepted else s.accepted }
  | .send input os packet, t =>
      ∃ out path, s.path.transmit s.caller input os packet = .ok (out, path) ∧ t = { s with path := path }
  | .recv os n, t => ∃ path, s.path.receive os n = .ok path ∧ t = { s with path := path }
  | .updateState events, t =>
      t = { s with path := s.path.updateState events, accepted := events.flatMap (·.1.accepted) ++ s.accepted }

/-- A failed migration changes nothing, and packets are exchanged with accepted peers. -/
def Lawful (s : Session) : Call → Prop
  | .migrate input newPeer =>
      ∀ e, (s.path.migrateConnection input newPeer).1 = .error e → (s.path.migrateConnection input newPeer).2 = s.path
  | .send input os packet =>
      ∀ out path, s.path.transmit s.caller input os packet = .ok (out, path) → ∀ a ∈ out.sent, a.1 ∈ s.accepted
  | .recv _ _ => s.partner ∈ s.accepted
  | .updateState _ => True

/-- A migration that the library refuses meets a connection without a socket, and none is created. -/
def FailsBare (s : Session) : Call → Prop
  | .migrate input _ =>
      ∀ e, input.migrate = .error e → s.path.xdpSocket = none ∧ ¬ Creates s.path.optimizationManager input.os
  | _ => True

/-- The kernel does not give out the descriptor of a socket that is still open. -/
def Fresh (s : Session) : Call → Prop
  | .migrate input _ =>
      ∀ xdp ∈ s.path.xdpSocket, input.os.xdp.bind ≠ .ok xdp.udp.fd ∧ input.os.udp.bind ≠ .ok xdp.udp.fd
  | _ => True

/-- The socket and the program send to accepted peers. -/
structure Accepted (s : Session) : Prop where
  socket : s.path.SocketTo (· ∈ s.accepted)
  caller : s.caller ∈ s.accepted

variable {s t : Session} {call : Call}

private theorem new_accepted (m : OptimizationManager) (os : Creation) (localAddr remoteAddr : SocketAddr) :
    (new m os localAddr remoteAddr).Accepted :=
  ⟨ConnectionPath.socketTo_create rfl (List.mem_singleton.mpr rfl), List.mem_singleton.mpr rfl⟩

theorem Accepted.partner_mem (h : s.Accepted) : s.partner ∈ s.accepted := by
  unfold partner
  split
  · rename_i xdp hxdp
    exact (h.socket xdp hxdp).2
  · exact h.caller

private theorem step_accepted (h : s.Accepted) (hbare : s.FailsBare call) (hstep : s.step call t) : t.Accepted := by
  cases call with
  | migrate input newPeer =>
      subst hstep
      cases hmigrate : input.migrate with
      | ok id =>
          refine ⟨?_, List.mem_cons_of_mem _ h.caller⟩
          exact ConnectionPath.migrateConnection_socketTo (List.mem_cons_self)
      | error e =>
          obtain ⟨hnone, hcreates⟩ := hbare e hmigrate
          refine ⟨?_, h.caller⟩
          dsimp only
          rw [ConnectionPath.migrateConnection_none hcreates]
          intro xdp hxdp
          cases hxdp
  | send input os packet =>
      obtain ⟨out, path, hsend, rfl⟩ := hstep
      exact ⟨(ConnectionPath.transmit_eq_ok hsend h.socket h.caller).1, h.caller⟩
  | recv os n =>
      obtain ⟨path, hrecv, rfl⟩ := hstep
      exact ⟨ConnectionPath.receive_socketTo hrecv h.socket, h.caller⟩
  | updateState events =>
      subst hstep
      refine ⟨?_, List.mem_append_right _ h.caller⟩
      apply ConnectionPath.updateState_socketTo (h.socket.mono fun a ha => List.mem_append_right _ ha)
      intro e he a ha
      exact List.mem_append_left _ (List.mem_flatMap.mpr ⟨e, he, ha⟩)

/-- A migration that fails changes the socket unless there is none before and after. -/
private theorem migrate_lawful_iff {input : MigrationInput} {newPeer : SocketAddr}
    (hfresh : s.Fresh (.migrate input newPeer)) :
    s.Lawful (.migrate input newPeer) ↔ s.FailsBare (.migrate input newPeer) := by
  apply forall_congr'
  intro e
  apply imp_congr_right
  intro _
  by_cases hcreates : Creates s.path.optimizationManager input.os
  · obtain ⟨xdp, hpath, -, -, hfd⟩ := ConnectionPath.migrateConnection_some newPeer hcreates
    rw [hpath]
    constructor
    · intro hsame
      obtain ⟨hxdp, hudp⟩ := hfresh xdp (congrArg ConnectionPath.xdpSocket hsame).symm
      exact (hfd.elim hxdp hudp).elim
    · exact fun h => absurd hcreates h.2
  · rw [ConnectionPath.migrateConnection_none hcreates]
    constructor
    · intro hsame
      exact ⟨(congrArg ConnectionPath.xdpSocket hsame).symm, hcreates⟩
    · rintro ⟨hnone, -⟩
      rw [← hnone]

private theorem lawful_iff (h : s.Accepted) (hfresh : s.Fresh call) : s.Lawful call ↔ s.FailsBare call := by
  cases call with
  | migrate input newPeer => exact migrate_lawful_iff hfresh
  | send input os packet =>
      exact iff_of_true (fun out path hsend => (ConnectionPath.transmit_eq_ok hsend h.socket h.caller).2) trivial
  | recv os n => exact iff_of_true h.partner_mem trivial
  | updateState events => exact iff_of_true trivial trivial

/-- In every run of a connection, failed migrations change nothing and packets are exchanged with accepted peers only,
exactly if every migration that fails meets a connection without a socket and creates none. -/
theorem run_lawful_iff (m : OptimizationManager) (os : Creation) (localAddr remoteAddr : SocketAddr) (calls : List Call)
    (hfresh : Guarded step Fresh (new m os localAddr remoteAddr) calls) :
    Guarded step Lawful (new m os localAddr remoteAddr) calls ↔
      Guarded step FailsBare (new m os localAddr remoteAddr) calls :=
  guarded_iff_guarded Accepted (fun _ _ _ h _ hbare hstep => step_accepted h hbare hstep)
    (fun _ _ h hfresh => lawful_iff h hfresh) (new_accepted m os localAddr remoteAddr) hfresh

def granting (fd : ℕ) : Opening := ⟨none, .ok fd, .ok (), .ok (), fun _ => .error .unsupported⟩

/-- A kernel that has run out of descriptors. -/
def exhausted : Opening := ⟨none, .error "Too many open files", .ok (), .ok (), fun _ => .error .unsupported⟩

/-- The address `0.0.0.0:0`, at which any number of sockets can be bound. -/
def anyLocal : SocketAddr := ⟨.v4 0, 0⟩

/-- A connection that was opened with descriptor 3. -/
def opened : Session := new ⟨true, true⟩ ⟨granting 3, granting 3⟩ anyLocal (XdpSocket.loopback 4433)

def shortPacket : Packet := ⟨0, some [1, 2], 2, true, none, 0⟩

def sendShort : Call := .send ⟨[], .ok [], .ok ()⟩ XdpSocket.sendsAll shortPacket

/-- A migration to a new socket, one that loses the socket, and one that the library refuses. -/
def migrations : List Call :=
  [.migrate ⟨⟨granting 4, granting 4⟩, .ok (), .ok 1⟩ (XdpSocket.loopback 5000),
    .migrate ⟨⟨exhausted, exhausted⟩, .ok (), .ok 2⟩ (XdpSocket.loopback 6000),
    .migrate ⟨⟨exhausted, exhausted⟩, .ok (), .error .done⟩ (XdpSocket.loopback 7000), sendShort]

theorem run_lawful_iff_exhausted :
    opened.path.xdpSocket.isSome ∧ Guarded step Fresh opened migrations ∧ Guarded step Lawful opened migrations := by
  have hfresh : Guarded step Fresh opened migrations := by
    refine ⟨?_, fun t₁ h₁ => ⟨?_, fun t₂ h₂ => ⟨?_, fun t₃ _ => ⟨trivial, fun _ _ => trivial⟩⟩⟩⟩
    · intro xdp hxdp
      cases hxdp
      exact ⟨by decide, by decide⟩
    · subst h₁
      intro xdp hxdp
      cases hxdp
      exact ⟨by decide, by decide⟩
    · subst h₁ h₂
      intro xdp hxdp
      cases hxdp
  refine ⟨rfl, hfresh, (run_lawful_iff _ _ _ _ _ hfresh).mpr ?_⟩
  refine ⟨?_, fun t₁ h₁ => ⟨?_, fun t₂ h₂ => ⟨?_, fun t₃ _ => ⟨trivial, fun _ _ => trivial⟩⟩⟩⟩
  · intro e he
    cases he
  · intro e he
    cases he
  · subst h₁ h₂
    have hnone : OptimizationManager.createXdpSocket ⟨true, true⟩ ⟨exhausted, exhausted⟩ anyLocal anyLocal = none := rfl
    exact fun e _ => ⟨rfl, createXdpSocket_eq_none_iff.mp hnone⟩

def refused : MigrationInput := ⟨⟨granting 4, granting 4⟩, .ok (), .error .done⟩

/-- A refused migration leaves a socket to the peer that was refused, and the next packet goes there. -/
theorem refused_migration_redirects :
    Guarded step Fresh opened [.migrate refused (XdpSocket.loopback 5000), sendShort] ∧
    ¬ Guarded step Lawful opened [.migrate refused (XdpSocket.loopback 5000), sendShort] ∧
    (opened.path.migrateConnection refused (XdpSocket.loopback 5000)).1 = .error .done ∧
    (((opened.path.migrateConnection refused (XdpSocket.loopback 5000)).2.transmit (XdpSocket.loopback 4433)
      ⟨[], .ok [], .ok ()⟩ XdpSocket.sendsAll shortPacket).toOption.bind (·.1.sent)) =
        some (XdpSocket.loopback 5000, [1, 2]) ∧
    XdpSocket.loopback 5000 ∉ opened.accepted := by
  refine ⟨⟨?_, fun t _ => ⟨trivial, fun _ _ => trivial⟩⟩, ?_, rfl, rfl, by decide⟩
  · intro xdp hxdp
    cases hxdp
    exact ⟨by decide, by decide⟩
  · rintro ⟨hmigrate, -⟩
    exact absurd (hmigrate .done rfl) (by decide)

end Session

end QuicFuscate.Core
