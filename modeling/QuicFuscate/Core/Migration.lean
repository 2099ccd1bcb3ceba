import QuicFuscate.Core.Connection
import QuicFuscate.Core.XdpSocket

/-!
# Where the packets of a connection go

A connection keeps addresses in three places: its own fields, its socket and the QUIC library.  A
migration opens a socket to the new peer and then asks the library; path events of the library change the fields
and the socket.  This part of a connection is modelled apart from the rest, which only asks whether there is a
socket.
-/

namespace QuicFuscate.Core

open Framework Fec

structure ConnectionPath where
  optimizationManager : OptimizationManager
  peerAddr : SocketAddr
  localAddr : SocketAddr
  xdpSocket : Option XdpSocket
  deriving DecidableEq

/-- What a call of `migrateConnection` meets: the kernel that opens a socket and connects it, and the library. -/
structure MigrationInput where
  os : Creation
  connect : Except String Unit
  migrate : Except LibraryError ℕ

inductive PathEvent
  | new (addr peer : SocketAddr)
  | validated (addr peer : SocketAddr)
  | failedValidation (addr peer : SocketAddr)
  | closed (addr peer : SocketAddr)
  | reusedSourceConnectionId (seq : ℕ) (old new : SocketAddr × SocketAddr)
  | peerMigrated (addr peer : SocketAddr)
  deriving DecidableEq, Repr

structure Following where
  reconfigure : Opening
  create : Creation

/-- What a transmission did: its result, and where which bytes went. -/
structure Transmission where
  result : Except ConnectionError (ℕ × Datagram)
  sent : Option (SocketAddr × List UInt8)

namespace ConnectionPath

def new (m : OptimizationManager) (os : Creation) (localAddr remoteAddr : SocketAddr) : ConnectionPath where
  optimizationManager := m
  peerAddr := remoteAddr
  localAddr := localAddr
  xdpSocket := m.createXdpSocket os localAddr remoteAddr

/-- The socket is replaced before the library is asked. -/
def migrateConnection (c : ConnectionPath) (input : MigrationInput) (newPeer : SocketAddr) :
    Except LibraryError ℕ × ConnectionPath :=
  let c := { c with xdpSocket := c.optimizationManager.createXdpSocket input.os c.localAddr newPeer }
  let c :=
    match c.xdpSocket with
    | some xdp => { c with xdpSocket := some (xdp.updateRemote input.connect newPeer).2 }
    | none => c
  (input.migrate, c)

def follow (c : ConnectionPath) (os : Following) (addr peer : SocketAddr) : ConnectionPath :=
  let c := { c with peerAddr := peer, localAddr := addr }
  match c.xdpSocket with
  | some xdp =>
      match xdp.reconfigure os.reconfigure addr peer with
      | (.ok (), xdp) => { c with xdpSocket := some xdp }
      | (.error _, _) => { c with xdpSocket := c.optimizationManager.createXdpSocket os.create addr peer }
  | none => { c with xdpSocket := c.optimizationManager.createXdpSocket os.create addr peer }

def onPathEvent (c : ConnectionPath) (os : Following) : PathEvent → ConnectionPath
  | .new _ _ => c
  | .validated addr peer => c.follow os addr peer
  | .failedValidation _ _ => c
  | .closed _ _ => c
  | .reusedSourceConnectionId _ _ _ => c
  | .peerMigrated addr peer => c.follow os addr peer

/-- The loop over the events of the library. -/
def updateState (c : ConnectionPath) (events : List (PathEvent × Following)) : ConnectionPath :=
  events.foldl (fun c e => c.onPathEvent e.2 e.1) c

/-- Send a packet to the remote of the socket, or leave it to the program, which sends it to `caller`. -/
def transmit (c : ConnectionPath) (caller : SocketAddr) (input : SendInput) (os : XdpSocket.SendInput)
    (packet : Packet) :
    Checked (Transmission × ConnectionPath) := do
  match c.xdpSocket with
  | some xdp =>
      let bytes ← sliceOf (← expectSome packet.data) 0 packet.len
      let (call, xdp) ← xdp.send os [bytes]
      let result ← QuicFuscateConnection.transmit true { input with xdp := call.result.map fun _ => () } packet
      return (⟨result, call.transmitted.map fun t => (xdp.udp.remote, t.2)⟩, { c with xdpSocket := some xdp })
  | none =>
      let result ← QuicFuscateConnection.transmit false input packet
      return (⟨result, result.toOption.map fun t => (caller, t.2.bytes)⟩, c)

/-- Read a frame of at most `n` bytes from the socket, if there is one. -/
def receive (c : ConnectionPath) (os : XdpSocket.RecvInput) (n : ℕ) : Checked ConnectionPath := do
  match c.xdpSocket with
  | some xdp =>
      let (_, xdp) ← xdp.recv os n
      return { c with xdpSocket := some xdp }
  | none => return c

end ConnectionPath

end QuicFuscate.Core
