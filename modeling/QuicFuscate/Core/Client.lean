import QuicFuscate.Core.Server
import QuicFuscate.Stealth.Manager

/-!
# The client

The client has one connection and repeats: read at most one datagram, send its one request as soon as the connection is
established, send whatever there is to send, update the state.  A datagram that the connection refuses is passed over; a
socket that fails ends the iteration.  HTTP/3 events are only logged.
-/

namespace QuicFuscate.Core

open Framework Fec Stealth

inductive Http3Error
  | done
  | other (code : ℤ)
  deriving DecidableEq, Repr

inductive SocketRead
  | data (input : RecvInput)
  | wouldBlock
  | failed

/-- How the HTTP/3 layer answers: to the creation of its configuration and of its connection, and to a request. -/
structure Http3Answers where
  config : Except Http3Error Unit
  transport : Except Http3Error Unit
  request : Except Http3Error Unit

/-- What an iteration meets.  The manager is the one that a request finds, since its profile may be exchanged at
any time; whether there is an XDP socket in the end depends on the path events. -/
structure ClientIteration where
  read : SocketRead
  established : Bool
  http3 : Http3Answers
  manager : Manager
  service : Service
  xdpSocket : Bool

structure Client where
  conn : QuicFuscateConnection
  hostHeader : String
  /-- Whether there is an HTTP/3 connection. -/
  h3Conn : Bool
  requestSent : Bool
  out : List UInt8

/-- What an iteration did: the payloads that its datagram brought to the library, the request that was sent, and the
datagrams that were sent. -/
structure ClientPass where
  delivered : List (List UInt8)
  request : Option (List Header)
  sent : List (List UInt8)
  deriving DecidableEq, Repr

namespace Client

def initHttp3 (c : Client) (answers : Http3Answers) : Except Http3Error Client := do
  if c.h3Conn then
    return c
  answers.config
  answers.transport
  return { c with h3Conn := true }

/-- The headers of a request when there is no masquerading. -/
def plainHeaders (host path : String) : List Header :=
  [(":method", "GET"), (":scheme", "https"), (":authority", host), (":path", path)]

/-- The HTTP/3 connection stays even if the request fails. -/
def sendHttp3Request (c : Client) (answers : Http3Answers) (manager : Manager) (path : String) :
    Except Http3Error (List Header) × Client :=
  match c.initHttp3 answers with
  | .error e => (.error e, c)
  | .ok c =>
      let headers := (manager.getHttp3HeaderList c.hostHeader path).getD (plainHeaders c.hostHeader path)
      (answers.request.map fun _ => headers, c)

def reported (result : Except ConnectionError ℕ) (out : List UInt8) : Checked (List (List UInt8)) :=
  match result with
  | .ok len =>
      if len > 0 then do
        return [← sliceOf out 0 len]
      else return []
  | .error _ => return []

/-- The client before its loop: it sends its first packet. -/
def start (host : Host) (conn : QuicFuscateConnection) (hostHeader : String) (answer : Answer) :
    Checked (List (List UInt8) × Client) := do
  let out := List.replicate 65535 0
  let (call, conn') ← conn.send host ⟨out, answer.library, answer.xdp⟩
  let out := call.buffer conn.xdpSocket out
  let sent ← reported call.result out
  return (sent, ⟨conn', hostHeader, false, false, out⟩)

/-- The datagram of an iteration; that it is refused is ignored. -/
def receive (host : Host) (c : Client) : SocketRead → Checked (List (List UInt8) × Client)
  | .data input => do
      let (call, conn) ← c.conn.recv host input
      return (call.delivered, { c with conn := conn })
  | _ => return ([], c)

def request (c : Client) (it : ClientIteration) (path : String) : Option (List Header) × Client :=
  if it.established && !c.requestSent then
    match c.sendHttp3Request it.http3 it.manager path with
    | (.ok headers, c) => (some headers, { c with requestSent := true })
    | (.error _, c) => (none, c)
  else (none, c)

def step (host : Host) (path : String) (c : Client) (it : ClientIteration) : Checked (ClientPass × Client) := do
  match it.read with
  | .failed => return (⟨[], none, []⟩, c)
  | read =>
      let (delivered, c) ← c.receive host read
      let (request, c) := c.request it path
      let (sent, conn, out) ← serve host it.service it.xdpSocket c.conn c.out
      return (⟨delivered, request, sent⟩, { c with conn := conn, out := out })

end Client

end QuicFuscate.Core
