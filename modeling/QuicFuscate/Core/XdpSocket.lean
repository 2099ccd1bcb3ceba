import Mathlib.Algebra.Ring.Nat
import QuicFuscate.Framework.Checked

/-!
# The socket of a connection

A connected UDP socket, with frames of the AF_XDP crate beside it where the kernel grants them.  A send
goes through a frame of the pool if there is one, and falls back to the UDP socket.  What the kernel
and the crate do at a call is part of the call's input.  Telemetry and logging are left out.
-/

namespace QuicFuscate.Core

open Framework

inductive IpAddr
  | v4 (bits : UInt32)
  | v6 (bits : BitVec 128)
  deriving DecidableEq, Repr

structure SocketAddr where
  ip : IpAddr
  port : UInt16
  deriving DecidableEq, Repr

def IpAddr.isLoopback : IpAddr → Bool
  | .v4 bits => bits.toNat / 2 ^ 24 == 127
  | .v6 bits => bits == 1

structure UdpSocket where
  fd : ℕ
  bind : SocketAddr
  remote : SocketAddr
  deriving DecidableEq, Repr

/-- A frame of 2048 bytes in memory shared with the kernel, of which the first `len` are a packet. -/
structure BufMmap where
  data : List UInt8
  size : data.length = 2048
  len : UInt16
  deriving DecidableEq

namespace BufMmap

def fill (b : BufMmap) (bytes : List UInt8) : Checked BufMmap :=
  match h : copyFront b.data bytes with
  | .ok data => .ok ⟨data, (copyFront_length h).trans b.size, b.len⟩
  | .error e => .error e

def setLen (b : BufMmap) (len : UInt16) : BufMmap := { b with len := len }

def packet (b : BufMmap) : List UInt8 := b.data.take b.len.toNat

end BufMmap

/-- The frames that are free, the next one first, and those on their way to the kernel.  The queue of the
latter wraps around when it is full; a call puts one frame into it and leaves it empty. -/
structure XdpState where
  pool : List BufMmap
  pending : List BufMmap
  deriving DecidableEq

structure XdpSocket where
  udp : UdpSocket
  state : Option XdpState
  deriving DecidableEq

inductive XdpInitError
  | mmap
  | invalidRing
  | umem (e : String)
  | socket (e : String)
  | unsupported
  deriving DecidableEq, Repr

/-! ## Opening a socket -/

/-- What the process and the kernel answer while a socket is opened: the interface in the environment, the
descriptor of the new socket, and the frames that setting up AF_XDP on an interface leaves free. -/
structure Opening where
  xdpIface : Option String
  bind : Except String ℕ
  connect : Except String Unit
  setNonblocking : Except String Unit
  frames : String → Except XdpInitError (List BufMmap)

def UdpSocket.connected (os : Opening) (bind remote : SocketAddr) : Except String UdpSocket := do
  let fd ← os.bind
  os.connect
  os.setNonblocking
  return ⟨fd, bind, remote⟩

def initState (os : Opening) (iface : String) : Except XdpInitError XdpState := do
  let bufs ← os.frames iface
  return ⟨bufs, []⟩

def inferIface (os : Opening) (addr : SocketAddr) : String :=
  match os.xdpIface with
  | some iface => iface
  | none => if addr.ip.isLoopback then "lo" else "eth0"

namespace XdpSocket

def newUdp (os : Opening) (bind remote : SocketAddr) : Except String XdpSocket := do
  let udp ← UdpSocket.connected os bind remote
  return ⟨udp, none⟩

/-- A socket whose frames cannot be set up is a UDP socket. -/
def new (os : Opening) (bind remote : SocketAddr) : Except String XdpSocket := do
  let udp ← UdpSocket.connected os bind remote
  match initState os (inferIface os bind) with
  | .ok state => return ⟨udp, some state⟩
  | .error _ => return ⟨udp, none⟩

/-- The frames are given up first; the UDP socket is replaced when the new one is there. -/
def reconfigure (s : XdpSocket) (os : Opening) (bind remote : SocketAddr) : Except String Unit × XdpSocket :=
  let s := { s with state := none }
  match UdpSocket.connected os bind remote with
  | .error e => (.error e, s)
  | .ok udp =>
      match initState os (inferIface os bind) with
      | .ok state => (.ok (), ⟨udp, some state⟩)
      | .error _ => (.ok (), { s with udp := udp })

def updateRemote (s : XdpSocket) (connect : Except String Unit) (remote : SocketAddr) :
    Except String Unit × XdpSocket :=
  match connect with
  | .ok () => (.ok (), { s with udp := { s.udp with remote := remote } })
  | .error e => (.error e, s)

def isActive (s : XdpSocket) : Bool := s.state.isSome

/-! ## Sending -/

inductive Route
  | xdp
  | udp
  deriving DecidableEq, Repr

structure SendCall where
  result : Except String ℕ
  transmitted : Option (Route × List UInt8)
  deriving DecidableEq

/-- What a call of `send` meets: whether the crate sends the frame at the front of the queue, the frames that the
kernel is done with, and the answer to `sendmsg`. -/
structure SendInput where
  trySend : Except String Bool
  completed : List BufMmap
  sendmsg : Except String Unit

def sendUdp (input : SendInput) (buffers : List (List UInt8)) : SendCall :=
  match input.sendmsg with
  | .ok () => ⟨.ok (buffers.map List.length).sum, some (.udp, buffers.flatten)⟩
  | .error e => ⟨.error e, none⟩

/-- Send one frame: how many were sent, what left and what is still in the queue. -/
def trySend (input : SendInput) (pending : List BufMmap) :
    Except String ℕ × Option (Route × List UInt8) × List BufMmap :=
  match input.trySend, pending with
  | .ok true, b :: pending => (.ok 1, some (.xdp, b.packet), pending)
  | .ok _, pending => (.ok 0, none, pending)
  | .error e, pending => (.error e, none, pending)

/-- The fast path has the length of all buffers and the bytes of the first one. -/
def send (s : XdpSocket) (input : SendInput) (buffers : List (List UInt8)) : Checked (SendCall × XdpSocket) :=
  match s.state with
  | none => return (sendUdp input buffers, s)
  | some state =>
      match state.pool with
      | [] => return (sendUdp input buffers, s)
      | b :: pool => do
          let len := (buffers.map List.length).sum
          let data ← readAt buffers 0
          let copyLen := min len b.data.length
          let b ← b.fill (← sliceOf data 0 copyLen)
          let b := b.setLen (UInt16.ofNat copyLen)
          let (result, transmitted, pending) := trySend input (state.pending ++ [b])
          let sent := result.toOption.getD 0
          let pool := input.completed.take sent ++ pool
          if sent = 1 then
            return (⟨.ok copyLen, transmitted⟩, { s with state := some ⟨pool, pending⟩ })
          else if result.toBool then
            return (sendUdp input buffers, { s with state := some ⟨pending ++ pool, []⟩ })
          else
            return (sendUdp input buffers, { s with state := none })

/-! ## Receiving -/

/-- What a call of `recv` meets: a frame that the crate has received, and the answer to `recvmsg`. -/
structure RecvInput where
  tryRecv : Except String (Option BufMmap)
  recvmsg : Except String (List UInt8)

def recvUdp (input : RecvInput) (n : ℕ) : Except String (List UInt8) := input.recvmsg.map (List.take n)

def recv (s : XdpSocket) (input : RecvInput) (n : ℕ) : Checked (Except String (List UInt8) × XdpSocket) :=
  match s.state with
  | none => return (recvUdp input n, s)
  | some _ =>
      match input.tryRecv with
      | .ok (some b) => do
          let bytes ← sliceOf b.data 0 (min b.len.toNat n)
          return (.ok bytes, s)
      | .ok none => return (recvUdp input n, s)
      | .error _ => return (recvUdp input n, { s with state := none })

end XdpSocket

/-! ## Creating the socket of a connection -/

/-- Whether a connection gets a socket of its own; the memory pool is left out. -/
structure OptimizationManager where
  xdpAvailable : Bool
  useXdp : Bool
  deriving DecidableEq, Repr

/-- What is answered while a socket is created: to the first attempt, and to the one without frames. -/
structure Creation where
  xdp : Opening
  udp : Opening

def OptimizationManager.createXdpSocket (m : OptimizationManager) (os : Creation) (bind remote : SocketAddr) :
    Option XdpSocket :=
  if !m.xdpAvailable || !m.useXdp then none
  else
    match XdpSocket.new os.xdp bind remote with
    | .ok sock => some sock
    | .error _ => (XdpSocket.newUdp os.udp bind remote).toOption

end QuicFuscate.Core
