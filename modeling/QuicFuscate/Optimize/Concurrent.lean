import QuicFuscate.Framework.Interleaving
import QuicFuscate.Optimize.MemoryPool

/-!
# Concurrent callers of the memory pool

`alloc` and `free` take the pool by shared reference.  A call is the sequence of its accesses to the
queues and the atomic counters, and other callers may run between any two of them.  The counters are
64-bit words, so that adding and subtracting wrap; the loads of the telemetry are left out.
-/

namespace QuicFuscate.Optimize

open Framework

/-- `counter.fetch_add(1)` -/
def fetchAdd (counter : ℕ) : ℕ := (counter + 1) % 2 ^ 64

/-- `counter.fetch_sub(1)` -/
def fetchSub (counter : ℕ) : ℕ := (counter + (2 ^ 64 - 1)) % 2 ^ 64

/-- The next access of a caller, with the local variables that the rest of its call reads. -/
inductive Stage
  | idle
  -- `alloc`
  | pop (node : ℕ)
  | subAvailable (b : Block)
  | loadCapacity
  | growWhile (newCapacity : ℕ)
  | growNode (newCapacity n : ℕ)
  | growPush (newCapacity n : ℕ)
  | growAvailable (newCapacity n : ℕ)
  | growCapacity (newCapacity n : ℕ)
  | addInUse (b : Block)
  -- `free`
  | checkAvailable (node : ℕ) (block : Block)
  | checkCapacity (node : ℕ) (block : Block) (available : ℕ)
  | push (node : ℕ) (block : Block)
  | addAvailable (node : ℕ)
  | subInUse
  deriving DecidableEq, Repr

/-- A caller and the blocks that it holds. -/
structure Caller where
  stage : Stage
  held : List Block
  deriving DecidableEq, Repr

inductive Action
  | alloc (node : ℕ)
  | free (node i : ℕ)
  | proceed
  deriving DecidableEq, Repr

namespace Caller

/-- The next access of a call, which ends when the caller is idle again. -/
def proceed (p : MemoryPool) (c : Caller) : Option (MemoryPool × Caller) :=
  match c.stage with
  | .idle => none
  | .pop node =>
      match p.pop node with
      | some (b, p) => some (p, { c with stage := .subAvailable b })
      | none => some (p, { c with stage := .loadCapacity })
  | .subAvailable b =>
      some ({ p with available := fetchSub p.available }, { c with stage := .addInUse b })
  | .loadCapacity => some (p, { c with stage := .growWhile (p.capacity * 2 % 2 ^ 64) })
  | .growWhile newCapacity =>
      if p.capacity < newCapacity then some (p, { c with stage := .growNode newCapacity 0 })
      else some (p, { c with stage := .addInUse (allocNumaBlock p.blockSize) })
  | .growNode newCapacity n =>
      if n < p.pools.length ∧ ¬ p.capacity ≥ newCapacity then
        some (p, { c with stage := .growPush newCapacity n })
      else some (p, { c with stage := .growWhile newCapacity })
  | .growPush newCapacity n =>
      some (p.push n (allocNumaBlock p.blockSize), { c with stage := .growAvailable newCapacity n })
  | .growAvailable newCapacity n =>
      some ({ p with available := fetchAdd p.available }, { c with stage := .growCapacity newCapacity n })
  | .growCapacity newCapacity n =>
      some ({ p with capacity := fetchAdd p.capacity }, { c with stage := .growNode newCapacity (n + 1) })
  | .addInUse b => some ({ p with inUse := fetchAdd p.inUse }, ⟨.idle, c.held ++ [b]⟩)
  | .checkAvailable node block =>
      some (p, { c with stage := .checkCapacity node block p.available })
  | .checkCapacity node block available =>
      if available < p.capacity then some (p, { c with stage := .push node block })
      else some (p, { c with stage := .subInUse })
  | .push node block => some (p.push node block, { c with stage := .addAvailable node })
  | .addAvailable _ =>
      some ({ p with available := fetchAdd p.available }, { c with stage := .subInUse })
  | .subInUse => some ({ p with inUse := fetchSub p.inUse }, { c with stage := .idle })

def act (p : MemoryPool) (c : Caller) (a : Action) : Option (MemoryPool × Caller) :=
  match c.stage, a with
  | .idle, .alloc node => some (p, { c with stage := .pop node })
  | .idle, .free node i => do
      let block ← c.held[i]?
      return (p, ⟨.checkAvailable node (block.map fun _ => 0), c.held.eraseIdx i⟩)
  | _, .proceed => c.proceed p
  | _, _ => none

end Caller

abbrev SharedPool := Threads MemoryPool Caller

namespace SharedPool

/-- A new pool and as many callers as one likes, none of which holds a block yet. -/
def new (nodes capacity blockSize callers : ℕ) : SharedPool where
  shared := MemoryPool.new nodes capacity blockSize
  locals := List.replicate callers ⟨.idle, []⟩

def run (s : SharedPool) (events : List (ℕ × Action)) : Option SharedPool := Threads.run Caller.act s events

end SharedPool

end QuicFuscate.Optimize
