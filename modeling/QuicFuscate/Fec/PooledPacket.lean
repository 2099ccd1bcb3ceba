import QuicFuscate.Fec.Packet
import QuicFuscate.Framework.Stateful
import QuicFuscate.Optimize.MemoryPool

/-!
# Readers of frames with their memory pool

The two readers again, over the pool that their blocks come from.  A block that is dropped without
`free_block` is never handed back.  The node of each call to the pool is an argument.
-/

namespace QuicFuscate.Fec.Pooled

open Framework Optimize

/-- An allocation doubles the capacity at most, which the fuel allows for. -/
def allocBlock (node : ℕ) : Stateful MemoryPool Block where
  run pool := (pool.alloc (pool.capacity + 1) node).map .ok

def freeBlock (node : ℕ) (block : Block) : Stateful MemoryPool Unit where
  run pool := some (.ok ((), pool.free node block))

def fromRaw (coeffNode dataNode id : ℕ) (rawData : List UInt8) : Stateful MemoryPool (Except String Packet) := do
  if rawData.isEmpty then
    return .error "Raw data is empty"
  let isSystematic := (← readAt rawData 0) = 1
  if isSystematic then
    let payload ← sliceOf rawData 1 rawData.length
    let data ← allocBlock dataNode
    if data.length < payload.length then
      return .error "Buffer from pool is too small"
    let data ← copyFront data payload
    return .ok ⟨id, some data, payload.length, true, none, 0⟩
  if rawData.length < 3 then
    return .error "Buffer too short for coefficient length"
  let coeffLen := (fromBeBytes (← readAt rawData 1) (← readAt rawData 2)).toNat
  if rawData.length < 3 + coeffLen then
    return .error "Buffer too short for coefficients"
  let coeffBlock ← allocBlock coeffNode
  let coeffBlock ← copyFront coeffBlock (← sliceOf rawData 3 (3 + coeffLen))
  let payload ← sliceOf rawData (3 + coeffLen) rawData.length
  let data ← allocBlock dataNode
  if data.length < payload.length then
    return .error "Buffer from pool is too small"
  let data ← copyFront data payload
  return .ok ⟨id, some data, payload.length, false, some coeffBlock, coeffLen⟩

def fromBlock (node id : ℕ) (block : Block) (len : ℕ) : Stateful MemoryPool (Except String Packet) := do
  if len = 0 ∨ len > block.length then
    freeBlock node block
    return .error "Invalid raw packet length"
  let isSystematic := (← readAt block 0) = 1
  if isSystematic then
    return .ok ⟨id, some (← Packet.copyWithin block 1 len), len - 1, true, none, 0⟩
  if len < 3 then
    freeBlock node block
    return .error "Buffer too short for coefficient length"
  let coeffLen := (fromBeBytes (← readAt block 1) (← readAt block 2)).toNat
  if len < 3 + coeffLen then
    freeBlock node block
    return .error "Buffer too short for coefficients"
  let coeffBlock ← allocBlock node
  let coeffBlock ← copyFront coeffBlock (← sliceOf block 3 (3 + coeffLen))
  let data ← Packet.copyWithin block (3 + coeffLen) len
  return .ok ⟨id, some data, len - (3 + coeffLen), false, some coeffBlock, coeffLen⟩

end QuicFuscate.Fec.Pooled
