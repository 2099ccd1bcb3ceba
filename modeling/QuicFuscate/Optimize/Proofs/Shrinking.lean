import QuicFuscate.Framework.GuardedRun
import QuicFuscate.Optimize.Proofs.AnyNode

/-!
# When shrinking comes to an end

The shrinking loop stops on the `available` counter but advances by taking blocks from the queues.
A `free` on a node without a queue counts its block as available and drops it; from then on the
counter stays ahead of the queues by one more, and a `set_capacity` that asks for more blocks than
are queued runs on empty queues for ever.
-/

namespace QuicFuscate.Optimize.MemoryPool

open Framework

/-- A pool over `nodes` queues in which `stray` blocks are counted as available but not queued. -/
structure Strayed (nodes stray : ℕ) (p : MemoryPool) : Prop where
  nodes_eq : p.pools.length = nodes
  available_eq : p.available = p.queued + stray
  available_le : p.available ≤ p.capacity

variable {nodes stray blockSize : ℕ} {p p' : MemoryPool}

/-! ## One call -/

theorem Strayed.stocked {n : ℕ} (hn : n < p.pools.length) (h : Strayed nodes stray p) :
    Strayed nodes stray (p.stocked n) where
  nodes_eq := (stocked_nodes p n).trans h.nodes_eq
  available_eq := by
    have hqueued := push_queued hn (allocNumaBlock p.blockSize)
    have havailable := h.available_eq
    change p.available + 1 = (p.push n (allocNumaBlock p.blockSize)).queued + stray
    omega
  available_le := Nat.succ_le_succ h.available_le

theorem Strayed.shed {n : ℕ} {b : Block} (h : Strayed nodes stray p) (hpop : p.pop n = some (b, p')) :
    Strayed nodes stray p'.shed := by
  have hqueued := pop_queued hpop
  have havailable := h.available_eq
  obtain ⟨rest, -, rfl⟩ := pop_eq_some hpop
  refine ⟨by simpa [MemoryPool.shed] using h.nodes_eq, ?_, Nat.sub_le_sub_right h.available_le 1⟩
  change p.available - 1 = queued { p with pools := p.pools.set n rest } + stray
  omega

theorem Strayed.alloc {fuel node : ℕ} {b : Block} (h : Strayed nodes stray p)
    (hrun : p.alloc fuel node = some (b, p')) : Strayed nodes stray p' := by
  obtain ⟨rest, -, hpop, rfl⟩ | ⟨q, -, hgrow, -, rfl⟩ := alloc_cases hrun
  · have hqueued := pop_queued hpop
    have havailable := h.available_eq
    refine ⟨by simpa using h.nodes_eq, ?_, (Nat.sub_le _ _).trans h.available_le⟩
    change p.available - 1 = queued { p with pools := p.pools.set node rest } + stray
    omega
  · obtain ⟨hq, -⟩ := grow_invariant (Strayed nodes stray) (fun _ _ hn hq => hq.stocked hn) h hgrow
    exact ⟨hq.nodes_eq, hq.available_eq, hq.available_le⟩

theorem Strayed.setCapacity {fuel newCapacity : ℕ} (h : Strayed nodes stray p)
    (hrun : p.setCapacity fuel newCapacity = some p') : Strayed nodes stray p' :=
  setCapacity_invariant (Strayed nodes stray) (fun _ _ hn hq => hq.stocked hn)
    (fun _ _ _ _ hq hpop => hq.shed hpop) h hrun

/-- Whether a block that is returned goes astray. -/
def strays (p : MemoryPool) (node : ℕ) : ℕ :=
  if p.available < p.capacity ∧ p.pools.length ≤ node then 1 else 0

theorem Strayed.free (h : Strayed nodes stray p) (node : ℕ) (b : Block) :
    Strayed nodes (stray + p.strays node) (p.free node b) := by
  have havailable := h.available_eq
  unfold MemoryPool.free
  dsimp only
  split
  · rename_i hroom
    have hqueued := push_queued_eq p node (b.map fun _ => 0)
    refine ⟨(push_nodes p node _).trans h.nodes_eq, ?_, hroom⟩
    change p.available + 1 = (p.push node (b.map fun _ => 0)).queued + (stray + p.strays node)
    have hstrays : p.strays node = if p.pools.length ≤ node then 1 else 0 := by
      simp only [strays, hroom, true_and]
    rw [hstrays]
    split at hqueued
    · rw [if_neg (by omega)]
      omega
    · rw [if_pos (by omega)]
      omega
  · rename_i hfull
    have hnone : p.strays node = 0 := if_neg (fun hstrays => hfull hstrays.1)
    rw [hnone]
    exact ⟨h.nodes_eq, havailable, h.available_le⟩

/-- With a stray block, a call that is to drop more blocks than are queued never ends: its counters
keep asking for a block when the queues have run out. -/
theorem Strayed.setCapacity_diverges (h : Strayed nodes stray p) (hstray : 0 < stray) {newCapacity : ℕ}
    (hmore : newCapacity + p.queued < p.capacity) (fuel : ℕ) : p.setCapacity fuel newCapacity = none := by
  have hloop : whileLoop (fun s : ℕ × MemoryPool => decide (s.1 > 0 ∧ s.2.available > 0))
      (fun s => shrinkPass s.2.pools.length 0 s) fuel (p.capacity - newCapacity, p) = none := by
    apply whileLoop_diverges (fun s => Strayed nodes stray s.2 ∧ s.2.queued < s.1)
    · rintro ⟨diff, q⟩ ⟨hq, hlt⟩
      have havailable := hq.available_eq
      dsimp only at hlt havailable ⊢
      rw [decide_eq_true_eq]
      omega
    · rintro ⟨diff, q⟩ hq
      apply shrinkPass_invariant (fun s => Strayed nodes stray s.2 ∧ s.2.queued < s.1) _ _ _ hq
      rintro diff q n b q' - ⟨hq, hlt⟩ hpop
      have hqueued := pop_queued hpop
      refine ⟨hq.shed hpop, ?_⟩
      change q'.queued < diff - 1
      dsimp only at hlt
      omega
    · exact ⟨h, by dsimp only; omega⟩
  unfold MemoryPool.setCapacity
  rw [if_neg (by omega), hloop]
  rfl

theorem Strayed.setCapacity_terminates (h : Strayed nodes 0 p) (hnodes : 0 < nodes) (newCapacity : ℕ) :
    ∃ fuel p', p.setCapacity fuel newCapacity = some p' := by
  apply setCapacity_terminates_of (fun s => Strayed nodes 0 s.2)
  · intro diff q n b q' _ hq hpop
    exact hq.shed hpop
  · intro diff q hq _ hpos
    exact hpos.trans_eq hq.available_eq
  · exact h.nodes_eq.symm ▸ hnodes
  · exact h

/-- Every `set_capacity` ends. -/
def ShrinksToEnd (p : MemoryPool) : Prop := ∀ newCapacity, ∃ fuel p', p.setCapacity fuel newCapacity = some p'

theorem Strayed.shrinksToEnd_iff (h : Strayed nodes stray p) (hnodes : 0 < nodes) :
    p.ShrinksToEnd ↔ stray = 0 := by
  constructor
  · intro hends
    by_contra hstray
    have havailable := h.available_eq
    have hle := h.available_le
    -- dropping all blocks asks for the stray ones as well
    obtain ⟨fuel, p', hrun⟩ := hends 0
    rw [h.setCapacity_diverges (by omega) (by omega) fuel] at hrun
    simp at hrun
  · rintro rfl newCapacity
    exact h.setCapacity_terminates hnodes newCapacity

/-! ## Runs -/

/-- A block that is freed is one that is held. -/
def FreesHeld (s : Run) : Call → Prop
  | .free _ i => i < s.held.length
  | _ => True

/-- A block that is kept goes into a queue. -/
def KeepsQueued (s : Run) : Call → Prop
  | .free node _ => s.pool.available < s.pool.capacity → node < s.pool.pools.length
  | _ => True

theorem Strayed.calls {s t : Run} {c : Call} (h : Strayed nodes stray s.pool) (hcall : Calls s c t) :
    ∃ stray', Strayed nodes stray' t.pool ∧ (KeepsQueued s c → stray' = stray) ∧
      (¬KeepsQueued s c → 0 < stray') := by
  obtain ⟨out, hexec⟩ := hcall
  cases hexec with
  | alloc hrun => exact ⟨stray, h.alloc hrun, fun _ => rfl, fun hnot => absurd trivial hnot⟩
  | write hheld hcontents => exact ⟨stray, h, fun _ => rfl, fun hnot => absurd trivial hnot⟩
  | @free node i b hheld =>
      refine ⟨_, h.free node b, ?_, ?_⟩
      · intro hkeeps
        have hnone : s.pool.strays node = 0 := if_neg (fun hstrays => by
          have hlt := hkeeps hstrays.1
          omega)
        rw [hnone, Nat.add_zero]
      · intro hnot
        simp only [KeepsQueued, Classical.not_imp, Nat.not_lt] at hnot
        rw [show s.pool.strays node = 1 from if_pos hnot]
        omega
  | setCapacity hrun => exact ⟨stray, h.setCapacity hrun, fun _ => rfl, fun hnot => absurd trivial hnot⟩

private theorem strayed_new (hnodes : 0 < nodes) (capacity blockSize : ℕ) :
    Strayed nodes 0 (new nodes capacity blockSize) := by
  have hnew := (invariant_new hnodes capacity blockSize).counted
  exact ⟨hnew.nodes_eq, hnew.available_eq, hnew.available_le⟩

/-- Every `set_capacity` of a run comes to an end exactly if every block that was kept on its return
went into a queue. -/
theorem shrinking_ends_iff (hnodes : 0 < nodes) (capacity blockSize : ℕ) {cs : List Call}
    (hheld : Guarded Calls FreesHeld ⟨new nodes capacity blockSize, []⟩ cs) :
    Always Calls (fun s => s.pool.ShrinksToEnd) ⟨new nodes capacity blockSize, []⟩ cs ↔
      Guarded Calls KeepsQueued ⟨new nodes capacity blockSize, []⟩ cs := by
  have hnew := strayed_new hnodes capacity blockSize
  refine always_iff_guarded (fun s : Run => ∃ stray, Strayed nodes stray s.pool) ?_ ?_ ?_ ⟨0, hnew⟩
    ((hnew.shrinksToEnd_iff hnodes).mpr rfl) hheld
  · rintro s c t ⟨stray, hs⟩ - hcall
    obtain ⟨stray', ht, -⟩ := hs.calls hcall
    exact ⟨stray', ht⟩
  · rintro s c t ⟨stray, hs⟩ hends - hkeeps hcall
    obtain ⟨stray', ht, hsame, -⟩ := hs.calls hcall
    rw [ht.shrinksToEnd_iff hnodes, hsame hkeeps]
    exact (hs.shrinksToEnd_iff hnodes).mp hends
  · rintro s c ⟨stray, hs⟩ - hfrees hnot
    -- only a `free` can go astray, and the block it is given is there
    cases c with
    | free node i =>
        have hcall : Calls s (.free node i) _ := ⟨[], .free (List.getElem?_eq_getElem hfrees)⟩
        obtain ⟨stray', ht, -, hpos⟩ := hs.calls hcall
        refine ⟨_, hcall, ?_⟩
        rw [ht.shrinksToEnd_iff hnodes]
        exact (hpos hnot).ne'
    | alloc node => exact absurd trivial hnot
    | write i contents => exact absurd trivial hnot
    | setCapacity newCapacity => exact absurd trivial hnot

theorem shrinking_ends_iff_own_node : Guarded Calls FreesHeld ⟨new 2 1 4, []⟩ [.alloc 0, .free 1 0] ∧
    Always Calls (fun s => s.pool.ShrinksToEnd) ⟨new 2 1 4, []⟩ [.alloc 0, .free 1 0] := by
  have hnew := strayed_new (by decide : 0 < 2) 1 4
  have hheld : Guarded Calls FreesHeld ⟨new 2 1 4, []⟩ [.alloc 0, .free 1 0] := by
    refine ⟨trivial, ?_⟩
    rintro t ⟨out, ⟨hrun⟩⟩
    exact ⟨Nat.succ_pos _, fun _ _ => trivial⟩
  refine ⟨hheld, (shrinking_ends_iff (by decide) 1 4 hheld).mpr ⟨trivial, ?_⟩⟩
  rintro t ⟨out, ⟨hrun⟩⟩
  exact ⟨fun _ => (hnew.alloc hrun).nodes_eq.symm ▸ Nat.one_lt_two, fun _ _ => trivial⟩

/-- The only block of a pool with one queue is taken and returned on a node without a queue. -/
theorem shrinking_never_ends : ∃ s, Execs ⟨new 1 1 4, []⟩ [.alloc 0, .free 5 0] [[0, 0, 0, 0]] s ∧
    ∀ fuel, s.pool.setCapacity fuel 0 = none := by
  have hrun : Execs ⟨new 1 1 4, []⟩ [.alloc 0, .free 5 0] ([[0, 0, 0, 0]] ++ ([] ++ []))
      ⟨⟨[[]], 4, 1, 0, 1⟩, []⟩ :=
    .call (@Exec.alloc _ 0 0 [0, 0, 0, 0] ⟨[[]], 4, 1, 1, 0⟩ rfl)
      (.call (@Exec.free ⟨⟨[[]], 4, 1, 1, 0⟩, [[0, 0, 0, 0]]⟩ 5 0 [0, 0, 0, 0] rfl) .done)
  have hstray : Strayed 1 1 ⟨[[]], 4, 1, 0, 1⟩ := ⟨rfl, rfl, le_rfl⟩
  exact ⟨_, hrun, hstray.setCapacity_diverges Nat.one_pos Nat.one_pos⟩

end QuicFuscate.Optimize.MemoryPool
