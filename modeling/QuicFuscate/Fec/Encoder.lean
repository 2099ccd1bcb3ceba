import QuicFuscate.Fec.Packet
import QuicFuscate.Framework.BoundedQueue

/-!
# Encoders

An encoder keeps a sliding window of source packets.  A repair packet is the combination of the
window with one row of a Cauchy matrix, whose evaluation points are window positions and, for the
repair index, `k + index`; both are truncated to the width of the field.  Coefficients belong to
window positions, not to packet ids.
-/

namespace QuicFuscate.Fec

open Framework

structure Encoder where
  k : ℕ
  n : ℕ
  sourceWindow : List Packet
  deriving DecidableEq, Repr

namespace Encoder

def new (k n : ℕ) : Encoder := ⟨k, n, []⟩

def addSourcePacket (e : Encoder) (packet : Packet) : Encoder :=
  { e with sourceWindow := pushBounded e.k e.sourceWindow packet }

def generateCauchyCoefficients (e : Encoder) (repairIndex : ℕ) : Checked (List UInt8) := do
  let y := UInt8.ofNat (e.k + repairIndex)
  if e.k = 0 then
    return []
  loopTo e.k [] fun i coeffs => do
    return coeffs ++ [← gfInvPrefetch (UInt8.ofNat i ^^^ y)]

/-- Add `coeff * source` to the first `packetLen` bytes of the repair payload. -/
def accumulate (env : Platform) (coeff : UInt8) (sourceData : List UInt8) (packetLen : ℕ)
    (repairData : List UInt8) : Checked (List UInt8) :=
  unrolledTo packetLen repairData fun j repairData => do
    writeAt repairData j
      (gfMulAdd env.policy coeff (← readAt sourceData j) (← readAt repairData j))

def addSource (env : Platform) (e : Encoder) (coeffs : List UInt8) (packetLen i : ℕ)
    (repairData : List UInt8) : Checked (List UInt8) := do
  let coeff ← readAt coeffs i
  if coeff = 0 then
    return repairData
  let sourcePacket ← readAt e.sourceWindow i
  let data ← expectSome sourcePacket.data
  let sourceData ← sliceOf data 0 sourcePacket.len
  accumulate env coeff sourceData packetLen repairData

def generateRepairPacket (env : Platform) (e : Encoder) (repairPacketIndex : ℕ) :
    Checked (Option Packet) := do
  if e.sourceWindow.length < e.k then
    return none
  let packetLen := (← readAt e.sourceWindow 0).len
  let coeffs ← e.generateCauchyCoefficients repairPacketIndex
  let repairData ← loopTo e.sourceWindow.length env.alloc (e.addSource env coeffs packetLen)
  let coeffBlock ← copyFront env.alloc coeffs
  let back ← expectSome e.sourceWindow.getLast?
  return some
    { id := back.id + 1 + repairPacketIndex
      data := some repairData
      len := packetLen
      isSystematic := false
      coefficients := some coeffBlock
      coeffLen := coeffs.length }

end Encoder

/-! ## GF(2^16) -/

structure Encoder16 where
  k : ℕ
  n : ℕ
  sourceWindow : List Packet
  deriving DecidableEq, Repr

def wordLoop {σ : Type} (n : ℕ) (s : σ) (body : ℕ → σ → Checked σ) : Checked σ :=
  loopTo (n / 2) s fun q => body (2 * q)

def readWord (xs : List UInt8) (j : ℕ) : Checked UInt16 := do
  return fromBeBytes (← readAt xs j) (← readAt xs (j + 1))

def writeWord (xs : List UInt8) (j : ℕ) (v : UInt16) : Checked (List UInt8) := do
  let bytes := toBeBytes v
  let xs ← writeAt xs j bytes.1
  writeAt xs (j + 1) bytes.2

namespace Encoder16

def new (k n : ℕ) : Encoder16 := ⟨k, n, []⟩

def addSourcePacket (e : Encoder16) (packet : Packet) : Encoder16 :=
  { e with sourceWindow := pushBounded e.k e.sourceWindow packet }

def generateCauchyCoefficients (F : Gf16Arith) (e : Encoder16) (repairIndex : ℕ) :
    Checked (List UInt16) :=
  let y := UInt16.ofNat (e.k + repairIndex)
  (List.range e.k).mapM fun i => F.gf16Inv (UInt16.ofNat i ^^^ y)

def accumulate (F : Gf16Arith) (coeff : UInt16) (data : List UInt8) (packetLen : ℕ)
    (repairData : List UInt8) : Checked (List UInt8) :=
  wordLoop packetLen repairData fun j repairData => do
    let s ← readWord data j
    let r ← readWord repairData j
    writeWord repairData j (F.gf16MulAdd coeff s r)

def addSource (F : Gf16Arith) (e : Encoder16) (coeffs : List UInt16) (packetLen i : ℕ)
    (repairData : List UInt8) : Checked (List UInt8) := do
  let coeff ← readAt coeffs i
  if coeff = 0 then
    return repairData
  let src ← readAt e.sourceWindow i
  let data ← sliceOf (← expectSome src.data) 0 packetLen
  accumulate F coeff data packetLen repairData

def generateRepairPacket (F : Gf16Arith) (env : Platform) (e : Encoder16)
    (repairPacketIndex : ℕ) : Checked (Option Packet) := do
  if e.sourceWindow.length < e.k then
    return none
  let packetLen := (← readAt e.sourceWindow 0).len
  let coeffs ← e.generateCauchyCoefficients F repairPacketIndex
  let repairData ← loopTo e.sourceWindow.length env.alloc (e.addSource F coeffs packetLen)
  let coeffBlock ← loopTo coeffs.length env.alloc fun i coeffBlock => do
    writeWord coeffBlock (2 * i) (← readAt coeffs i)
  let back ← expectSome e.sourceWindow.getLast?
  return some
    { id := back.id + 1 + repairPacketIndex
      data := some repairData
      len := packetLen
      isSystematic := false
      coefficients := some coeffBlock
      coeffLen := coeffs.length * 2 }

end Encoder16

end QuicFuscate.Fec
