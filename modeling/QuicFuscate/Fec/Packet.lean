import QuicFuscate.Fec.GfTables

/-!
# FEC packets and their frames

A packet owns a payload block and, when it is a repair packet, a coefficient block.  Blocks come
from the memory pool, which hands them out zeroed; pool accounting and the drop glue have no
effect on packet contents and are left out.  A frame is
`<is_systematic (1)> <coeff_len (2)> <coefficients> <payload>`, where the two coefficient fields
are present on repair frames only.
-/

namespace QuicFuscate.Fec

open Framework

/-- What the process offers to the FEC code: the SIMD policy its multiplications are dispatched
to, and the block size of its memory pool. -/
structure Platform where
  policy : SimdPolicy
  blockSize : ℕ
  deriving DecidableEq, Repr

def Platform.alloc (env : Platform) : List UInt8 := List.replicate env.blockSize 0

@[simp] theorem Platform.alloc_length (env : Platform) : env.alloc.length = env.blockSize :=
  List.length_replicate

structure Packet where
  id : ℕ
  data : Option (List UInt8)
  len : ℕ
  isSystematic : Bool
  coefficients : Option (List UInt8)
  coeffLen : ℕ
  deriving DecidableEq, Repr

/-! ## Big-endian words -/

def fromBeBytes (hi lo : UInt8) : UInt16 := UInt16.ofNat (hi.toNat * 256 + lo.toNat)

def toBeBytes (v : UInt16) : UInt8 × UInt8 := (UInt8.ofNat (v.toNat / 256), UInt8.ofNat v.toNat)

theorem fromBeBytes_toBeBytes (v : UInt16) : fromBeBytes (toBeBytes v).1 (toBeBytes v).2 = v := by
  have hv := v.toNat_lt
  rw [← UInt16.toNat_inj, fromBeBytes, toBeBytes]
  simp only [UInt8.toNat_ofNat', UInt16.toNat_ofNat']
  omega

theorem toBeBytes_fromBeBytes (hi lo : UInt8) : toBeBytes (fromBeBytes hi lo) = (hi, lo) := by
  have hhi := hi.toNat_lt
  have hlo := lo.toNat_lt
  have hword : (fromBeBytes hi lo).toNat = hi.toNat * 256 + lo.toNat := by
    rw [fromBeBytes, UInt16.toNat_ofNat']
    omega
  rw [toBeBytes, hword, Prod.mk.injEq, ← UInt8.toNat_inj, ← UInt8.toNat_inj,
    UInt8.toNat_ofNat', UInt8.toNat_ofNat']
  omega

namespace Packet

/-! ## Frames -/

def fromRaw (env : Platform) (id : ℕ) (rawData : List UInt8) : Checked (Except String Packet) := do
  if rawData.isEmpty then
    return .error "Raw data is empty"
  let isSystematic := (← readAt rawData 0) = 1
  if isSystematic then
    let payload ← sliceOf rawData 1 rawData.length
    if env.blockSize < payload.length then
      return .error "Buffer from pool is too small"
    let data ← copyFront env.alloc payload
    return .ok ⟨id, some data, payload.length, true, none, 0⟩
  if rawData.length < 3 then
    return .error "Buffer too short for coefficient length"
  let coeffLen := (fromBeBytes (← readAt rawData 1) (← readAt rawData 2)).toNat
  if rawData.length < 3 + coeffLen then
    return .error "Buffer too short for coefficients"
  let coeffBlock ← copyFront env.alloc (← sliceOf rawData 3 (3 + coeffLen))
  let payload ← sliceOf rawData (3 + coeffLen) rawData.length
  if env.blockSize < payload.length then
    return .error "Buffer from pool is too small"
  let data ← copyFront env.alloc payload
  return .ok ⟨id, some data, payload.length, false, some coeffBlock, coeffLen⟩

/-- `block.copy_within(offset..len, 0)`. -/
def copyWithin (block : List UInt8) (offset len : ℕ) : Checked (List UInt8) := do
  copyFront block (← sliceOf block offset len)

def fromBlock (env : Platform) (id : ℕ) (block : List UInt8) (len : ℕ) :
    Checked (Except String Packet) := do
  if len = 0 ∨ len > block.length then
    return .error "Invalid raw packet length"
  let isSystematic := (← readAt block 0) = 1
  if isSystematic then
    return .ok ⟨id, some (← copyWithin block 1 len), len - 1, true, none, 0⟩
  if len < 3 then
    return .error "Buffer too short for coefficient length"
  let coeffLen := (fromBeBytes (← readAt block 1) (← readAt block 2)).toNat
  if len < 3 + coeffLen then
    return .error "Buffer too short for coefficients"
  let coeffBlock ← copyFront env.alloc (← sliceOf block 3 (3 + coeffLen))
  let data ← copyWithin block (3 + coeffLen) len
  return .ok ⟨id, some data, len - (3 + coeffLen), false, some coeffBlock, coeffLen⟩

/-- The only error of the transport library that framing raises. -/
inductive QuicheError
  | bufferTooShort
  deriving DecidableEq, Repr

def toRaw (p : Packet) (buffer : List UInt8) : Checked (Except QuicheError (List UInt8 × ℕ)) := do
  let requiredLen := p.len + 1 + (if p.coefficients.isSome then 2 + p.coeffLen else 0)
  if buffer.length < requiredLen then
    return .error .bufferTooShort
  let buffer ← writeAt buffer 0 (if p.isSystematic then 1 else 0)
  let (buffer, offset) ← match p.coefficients with
    | some coeffs => do
        let bytes := toBeBytes (UInt16.ofNat p.coeffLen)
        let buffer ← copyAt buffer 1 [bytes.1, bytes.2]
        let buffer ← copyAt buffer 3 (← sliceOf coeffs 0 p.coeffLen)
        pure (buffer, 3 + p.coeffLen)
    | none => pure (buffer, 1)
  let buffer ← match p.data with
    | some data => do copyAt buffer offset (← sliceOf data 0 p.len)
    | none => pure buffer
  return .ok (buffer, offset + p.len)

def cloneForEncoder (env : Platform) (p : Packet) : Checked Packet := do
  let newData ← match p.data with
    | some data => do copyFront env.alloc (← sliceOf data 0 p.len)
    | none => pure env.alloc
  let coefficients ← match p.coefficients with
    | some c => do pure (some (← copyFront env.alloc (← sliceOf c 0 p.coeffLen)))
    | none => pure none
  return { p with data := some newData, coefficients := coefficients }

end Packet

end QuicFuscate.Fec
