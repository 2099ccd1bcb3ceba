import QuicFuscate.Fec.Adaptive
import QuicFuscate.Stealth.XorObfuscator

/-!
# The connection

A connection takes packets from the QUIC library, obfuscates them, passes them through the error
correction and hands frames to its transport: an XDP socket, or a buffer that the caller sends.  The
other way round it reads frames and hands what the decoder returns to the library.  What the
library and the sockets do at a call is part of the call's input.  Statistics and telemetry are left
out.
-/

namespace QuicFuscate.Core

open Framework Fec Stealth

/-- What the process offers to its connections. -/
structure Host where
  gf16 : Gf16Arith
  platform : Platform
  sha256 : Sha256
  cpu : CpuFeatures

/-- An error of the QUIC library: the one that framing raises, or one that its own calls return. -/
inductive LibraryError
  | framing (e : Packet.QuicheError)
  | done
  | other (code : ℤ)
  deriving DecidableEq, Repr

inductive ConnectionError
  | quiche (e : LibraryError)
  | fec (message : String)
  deriving DecidableEq, Repr

structure QuicFuscateConnection where
  fec : AdaptiveFec
  stealthManager : StealthManager
  packetIdCounter : ℕ
  outgoingFecPackets : List Packet
  /-- Whether there is an XDP socket. -/
  xdpSocket : Bool

structure Datagram where
  packet : Packet
  bytes : List UInt8
  deriving DecidableEq, Repr

/-- What a call of `send` gets: the caller's buffer, the packet that the library has to send, and
the outcome of a send on the XDP socket. -/
structure SendInput where
  buf : List UInt8
  library : Except LibraryError (List UInt8)
  xdp : Except String Unit

/-- What a call of `send` did: its result, the datagram that left, and the packets that were
enqueued. -/
structure SendCall where
  result : Except ConnectionError ℕ
  datagram : Option Datagram
  enqueued : List Packet
  deriving Repr

/-- What a call of `recv` gets: the caller's data, and the outcome of a receive on the XDP socket. -/
structure RecvInput where
  data : List UInt8
  xdp : Except String (List UInt8)

structure RecvCall where
  result : Except ConnectionError ℕ
  delivered : List (List UInt8)
  deriving Repr

namespace QuicFuscateConnection

def new (fec : AdaptiveFec) (stealthManager : StealthManager) (xdpSocket : Bool) : QuicFuscateConnection where
  fec := fec
  stealthManager := stealthManager
  packetIdCounter := 0
  outgoingFecPackets := []
  xdpSocket := xdpSocket

/-! ## Sending -/

/-- Send a packet on the XDP socket, or frame it into the caller's buffer, which the caller sends. -/
def transmit (xdpSocket : Bool) (input : SendInput) (packet : Packet) :
    Checked (Except ConnectionError (ℕ × Datagram)) := do
  if xdpSocket then
    let bytes ← sliceOf (← expectSome packet.data) 0 packet.len
    match input.xdp with
    | .ok () => return .ok (packet.len, ⟨packet, bytes⟩)
    | .error e => return .error (.fec e)
  else
    match ← packet.toRaw input.buf with
    | .ok (buf, len) => return .ok (len, ⟨packet, buf.take len⟩)
    | .error e => return .error (.quiche (.framing e))

def sendQueued (c : QuicFuscateConnection) (input : SendInput) (enqueued : List Packet) :
    Checked (SendCall × QuicFuscateConnection) :=
  match c.outgoingFecPackets with
  | [] => return (⟨.ok 0, none, enqueued⟩, c)
  | packet :: rest => do
      let c := { c with outgoingFecPackets := rest }
      match ← transmit c.xdpSocket input packet with
      | .ok (len, datagram) => return (⟨.ok len, some datagram, enqueued⟩, c)
      | .error e => return (⟨.error e, none, enqueued⟩, c)

def enqueue (host : Host) (c : QuicFuscateConnection) (bytes : List UInt8) : Checked QuicFuscateConnection := do
  let sendBuffer ← copyFront host.platform.alloc bytes
  let (payload, stealthManager) ← c.stealthManager.processOutgoingPacket host.sha256 host.cpu bytes
  let sendBuffer ← copyFront sendBuffer payload
  let fecPacket : Packet := ⟨c.packetIdCounter, some sendBuffer, bytes.length, true, none, 0⟩
  let (queue, fec) ← c.fec.onSend host.gf16 host.platform fecPacket c.outgoingFecPackets
  return { c with
    fec := fec
    stealthManager := stealthManager
    packetIdCounter := c.packetIdCounter + 1
    outgoingFecPackets := queue }

def send (host : Host) (c : QuicFuscateConnection) (input : SendInput) :
    Checked (SendCall × QuicFuscateConnection) := do
  match c.outgoingFecPackets with
  | _ :: _ => c.sendQueued input []
  | [] =>
      match input.library with
      | .error e => return (⟨.error (.quiche e), none, []⟩, c)
      | .ok bytes =>
          if bytes.length = 0 then
            return (⟨.ok 0, none, []⟩, c)
          let c ← c.enqueue host bytes
          c.sendQueued input c.outgoingFecPackets

/-! ## Receiving -/

def incomingId (c : QuicFuscateConnection) : ℕ := c.packetIdCounter

def readBlock (host : Host) (c : QuicFuscateConnection) (input : RecvInput) :
    Checked (Except ConnectionError (List UInt8 × ℕ)) := do
  if c.xdpSocket then
    match input.xdp with
    | .ok bytes => return .ok (← copyFront host.platform.alloc bytes, bytes.length)
    | .error e => return .error (.fec e)
  else
    let copyLen := min input.data.length host.platform.blockSize
    return .ok (← copyFront host.platform.alloc (← sliceOf input.data 0 copyLen), copyLen)

def deliver (host : Host) : StealthManager → List Packet → Checked (List (List UInt8) × StealthManager)
  | m, [] => return ([], m)
  | m, packet :: packets =>
      match packet.data with
      | some data => do
          let (data, m) ← m.processIncomingPacket host.sha256 host.cpu data
          let (rest, m) ← deliver host m packets
          return (data :: rest, m)
      | none => deliver host m packets

def recv (host : Host) (c : QuicFuscateConnection) (input : RecvInput) :
    Checked (RecvCall × QuicFuscateConnection) := do
  match ← c.readBlock host input with
  | .error e => return (⟨.error e, []⟩, c)
  | .ok (block, len) =>
      match ← Packet.fromBlock host.platform c.incomingId block len with
      | .error e => return (⟨.error (.fec e), []⟩, c)
      | .ok fecPacket =>
          let (recovered, fec) ← c.fec.onReceive host.gf16 host.platform fecPacket
          let c := { c with fec := fec }
          match recovered with
          | .error e => return (⟨.error (.fec ("FEC decoding failed: " ++ e)), []⟩, c)
          | .ok packets =>
              let (delivered, stealthManager) ← deliver host c.stealthManager packets
              return (⟨.ok len, delivered⟩, { c with stealthManager := stealthManager })

/-! ## Maintenance -/

/-- Report the loss statistics; a validated path may replace the XDP socket. -/
def updateState (c : QuicFuscateConnection) (r : Reading) (xdpSocket : Bool) : QuicFuscateConnection :=
  { c with fec := c.fec.reportLoss r, xdpSocket := xdpSocket }

end QuicFuscateConnection

end QuicFuscate.Core
