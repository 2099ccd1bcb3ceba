import Mathlib.Data.List.Basic
import QuicFuscate.Framework.WhileLoop

/-!
# The memory pool

Free blocks wait in one queue for each NUMA node.  The node on which a call runs is an argument of
the call, and an index without a queue is admitted, as the lookups admit it.  The atomic counters
are natural numbers, and of the telemetry only the utilization is kept.
-/

namespace QuicFuscate.Optimize

open Framework

abbrev Block := List UInt8

structure MemoryPool where
  pools : List (List Block)
  blockSize : ℕ
  capacity : ℕ
  inUse : ℕ
  available : ℕ
  deriving DecidableEq, Repr

/-- A fresh block; which node it is bound to does not show in its contents. -/
def allocNumaBlock (blockSize : ℕ) : Block := List.replicate blockSize 0

@[simp] theorem allocNumaBlock_length (blockSize : ℕ) : (allocNumaBlock blockSize).length = blockSize :=
  List.length_replicate

namespace MemoryPool

def nodeCap (nodes capacity n : ℕ) : ℕ := capacity / nodes + if n < capacity % nodes then 1 else 0

def new (nodes capacity blockSize : ℕ) : MemoryPool where
  pools := (List.range nodes).map fun n => List.replicate (nodeCap nodes capacity n) (allocNumaBlock blockSize)
  blockSize := blockSize
  capacity := capacity
  inUse := 0
  available := capacity

/-- The percentage that `update_metrics` reports. -/
def utilization (p : MemoryPool) : ℕ := if p.capacity = 0 then 0 else p.inUse * 100 / p.capacity

/-- `q.push(block)` on the queue of node `n`. -/
def push (p : MemoryPool) (n : ℕ) (block : Block) : MemoryPool :=
  { p with pools := p.pools.modify n (· ++ [block]) }

/-- `q.pop()` on the queue of node `n`, which yields nothing when there is no such queue. -/
def pop (p : MemoryPool) (n : ℕ) : Option (Block × MemoryPool) :=
  match p.pools[n]? with
  | some (b :: rest) => some (b, { p with pools := p.pools.set n rest })
  | _ => none

def growPass (newCapacity : ℕ) : ℕ → ℕ → MemoryPool → MemoryPool
  | 0, _, p => p
  | count + 1, n, p =>
      if p.capacity ≥ newCapacity then p
      else
        let p := p.push n (allocNumaBlock p.blockSize)
        growPass newCapacity count (n + 1)
          { p with available := p.available + 1, capacity := p.capacity + 1 }

def grow (fuel : ℕ) (p : MemoryPool) (newCapacity : ℕ) : Option MemoryPool :=
  whileLoop (fun p => p.capacity < newCapacity) (fun p => growPass newCapacity p.pools.length 0 p) fuel p

def alloc (fuel : ℕ) (p : MemoryPool) (node : ℕ) : Option (Block × MemoryPool) :=
  match p.pop node with
  | some (b, p) => some (b, { p with available := p.available - 1, inUse := p.inUse + 1 })
  | none => do
      let p ← p.grow fuel (p.capacity * 2)
      return (allocNumaBlock p.blockSize, { p with inUse := p.inUse + 1 })

/-- The block is zeroed; it is kept only while fewer than `capacity` blocks wait. -/
def free (p : MemoryPool) (node : ℕ) (block : Block) : MemoryPool :=
  let block := block.map fun _ => 0
  let p := if p.available < p.capacity then
      let p := p.push node block
      { p with available := p.available + 1 }
    else p
  { p with inUse := p.inUse - 1 }

/-- One pass of the shrinking loop over `count` queues from node `n` on, with `diff` blocks to go. -/
def shrinkPass : ℕ → ℕ → ℕ × MemoryPool → ℕ × MemoryPool
  | 0, _, s => s
  | count + 1, n, (diff, p) =>
      if diff = 0 then (diff, p)
      else match p.pop n with
        | some (_, p) => shrinkPass count (n + 1)
            (diff - 1, { p with available := p.available - 1, capacity := p.capacity - 1 })
        | none => shrinkPass count (n + 1) (diff, p)

def setCapacity (fuel : ℕ) (p : MemoryPool) (newCapacity : ℕ) : Option MemoryPool :=
  if newCapacity > p.capacity then p.grow fuel newCapacity
  else do
    let (_, p) ← whileLoop (fun s => s.1 > 0 ∧ s.2.available > 0)
      (fun s => shrinkPass s.2.pools.length 0 s) fuel (p.capacity - newCapacity, p)
    return p

end MemoryPool

end QuicFuscate.Optimize
