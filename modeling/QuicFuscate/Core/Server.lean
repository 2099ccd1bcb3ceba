import QuicFuscate.Core.Connection
import QuicFuscate.Core.XdpSocket
import QuicFuscate.Framework.KeyedTable

/-!
# The program around the connections

The server is one task with one UDP socket, one buffer for outgoing datagrams and a table of connections by
the address of the client.  An iteration reads at most one datagram, then lets every connection send until it has
nothing left, updates its state and drops the connections that the library has closed.  A datagram that its
connection refuses ends the iteration there.  What the library, the sockets and the clock answer is the
input of an iteration, and so is the order in which it visits the table.  HTTP/3 events are only logged.
-/

namespace QuicFuscate.Core

open Framework Fec Stealth

/-! ## Serving a connection -/

/-- What a call of `send` meets beside the caller's buffer. -/
structure Answer where
  library : Except LibraryError (List UInt8)
  xdp : Except String Unit

/-- What serving a connection meets: the answers to its calls of `send`, what the loss report amounts to, and
whether it is closed then. -/
structure Service where
  answers : List Answer
  reading : Reading
  closed : Bool

/-- The caller's buffer after a call of `send`: only a frame is written to it. -/
def SendCall.buffer (call : SendCall) (xdpSocket : Bool) (out : List UInt8) : List UInt8 :=
  match xdpSocket, call.datagram with
  | false, some datagram => datagram.bytes ++ out.drop datagram.bytes.length
  | _, _ => out

/-- Call `send` until it returns nothing or fails.  After each call the program sends as many bytes of its buffer as
`send` has reported.  The answers have to last until the loop ends. -/
def sendLoop (host : Host) : QuicFuscateConnection → List UInt8 → List Answer →
    Checked (List (List UInt8) × QuicFuscateConnection × List UInt8)
  | _, _, [] => .error .missingValue
  | c, out, answer :: answers => do
      let (call, c') ← c.send host ⟨out, answer.library, answer.xdp⟩
      let out := call.buffer c.xdpSocket out
      match call.result with
      | .error _ => return ([], c', out)
      | .ok len =>
          if len = 0 then
            return ([], c', out)
          let datagram ← sliceOf out 0 len
          let (datagrams, c', out) ← sendLoop host c' out answers
          return (datagram :: datagrams, c', out)

/-- Let a connection send, and update it; it may have an XDP socket then. -/
def serve (host : Host) (service : Service) (xdpSocket : Bool) (c : QuicFuscateConnection) (out : List UInt8) :
    Checked (List (List UInt8) × QuicFuscateConnection × List UInt8) := do
  let (datagrams, c, out) ← sendLoop host c out service.answers
  return (datagrams, c.updateState service.reading xdpSocket, out)

/-! ## The table -/

structure ServerConfig where
  initialMode : FecMode
  windowSizes : FecMode → Option ℕ

/-- What is answered while a connection is created: the library, the manager with its new key, and the clock. -/
structure Acceptance where
  accept : Except LibraryError Unit
  stealthManager : StealthManager
  now : ℕ

/-- A connection of the server would open its XDP socket at the address that the server's own socket is bound to; the
kernel refuses this, here and after every path event, and so it never has one. -/
def newServer (cfg : ServerConfig) (a : Acceptance) : Except LibraryError QuicFuscateConnection := do
  a.accept
  return .new (AdaptiveFec.new cfg.initialMode cfg.windowSizes a.now) a.stealthManager false

/-- A datagram with its source; the acceptance matters only if the source is new. -/
structure Receipt where
  source : SocketAddr
  input : RecvInput
  acceptance : Acceptance

structure Iteration where
  received : Option Receipt
  service : SocketAddr → Service
  order : List (SocketAddr × QuicFuscateConnection) → List (SocketAddr × QuicFuscateConnection)
  order_perm : ∀ clients, (order clients).Perm clients

structure Server where
  clients : List (SocketAddr × QuicFuscateConnection)
  out : List UInt8

/-- What an iteration did: the payloads that its datagram brought to the library, whether it got to serving the
connections, and the datagrams that it sent to each of them. -/
structure Pass where
  delivered : List (List UInt8)
  served : Bool
  sent : List (SocketAddr × List (List UInt8))

/-- The connection for a datagram; that it cannot be created aborts the program. -/
def connectionFor (cfg : ServerConfig) (known : Option QuicFuscateConnection) (a : Acceptance) :
    Checked QuicFuscateConnection :=
  match known with
  | some c => return c
  | none => expectSome (newServer cfg a).toOption

namespace Server

def start : Server := ⟨[], List.replicate 1460 0⟩

def serveAll (host : Host) (s : Server) (it : Iteration) (delivered : List (List UInt8)) : Checked (Pass × Server) := do
  let (sent, clients, out) ← visit (fun addr => serve host (it.service addr) false) (it.order s.clients) s.out
  return (⟨delivered, true, sent⟩, ⟨clients.filter fun e => !(it.service e.1).closed, out⟩)

def step (host : Host) (cfg : ServerConfig) (s : Server) (it : Iteration) : Checked (Pass × Server) := do
  match it.received with
  | none => s.serveAll host it []
  | some r =>
      let c ← connectionFor cfg (s.clients.lookup r.source) r.acceptance
      let (call, c) ← c.recv host r.input
      let s := { s with clients := put s.clients r.source c }
      match call.result with
      | .error _ => return (⟨call.delivered, false, []⟩, s)
      | .ok _ => s.serveAll host it call.delivered

end Server

/-! ## One client -/

/-- What an iteration means for one address: its datagram, if it was the one received, and its service, if the
iteration got that far. -/
structure Turn where
  received : Option Receipt
  service : Option Service

/-- The datagrams to the address and what its own datagram brought to the library. -/
structure TurnOutput where
  delivered : List (List UInt8)
  sent : List (List UInt8)
  deriving DecidableEq

def receiveTurn (host : Host) (cfg : ServerConfig) (known : Option QuicFuscateConnection) :
    Option Receipt → Checked (List (List UInt8) × Option QuicFuscateConnection)
  | none => return ([], known)
  | some r => do
      let c ← connectionFor cfg known r.acceptance
      let (call, c) ← c.recv host r.input
      return (call.delivered, some c)

/-- A server that has this address as its only client, with a clean buffer for each turn. -/
def turn (host : Host) (cfg : ServerConfig) (known : Option QuicFuscateConnection) (t : Turn) :
    Checked (TurnOutput × Option QuicFuscateConnection) := do
  let (delivered, known) ← receiveTurn host cfg known t.received
  match t.service, known with
  | some service, some c =>
      let (sent, c, _) ← serve host service false c (List.replicate 1460 0)
      return (⟨delivered, sent⟩, if service.closed then none else some c)
  | _, _ => return (⟨delivered, []⟩, known)

def Iteration.turnOf (it : Iteration) (pass : Pass) (addr : SocketAddr) : Turn where
  received := it.received.filter fun r => r.source = addr
  service := if pass.served then some (it.service addr) else none

def Iteration.outputOf (it : Iteration) (pass : Pass) (addr : SocketAddr) : TurnOutput where
  delivered := if it.received.any fun r => r.source = addr then pass.delivered else []
  sent := (pass.sent.lookup addr).getD []

end QuicFuscate.Core
