import QuicFuscate.Optimize.Proofs.Recycling

/-!
# Calls on any node

What one call does to the counters, whether or not its node has a queue, and what every run keeps:
the number of queues, the size of all blocks, the clean blocks in the queues and the count of the
blocks that are held.
-/

namespace QuicFuscate.Optimize.MemoryPool

open Framework

variable {nodes blockSize : ℕ} {p p' : MemoryPool} {s t : Run}

/-! ## One call -/

theorem grow_capacity {fuel newCapacity : ℕ} (hrun : p.grow fuel newCapacity = some p') :
    p.capacity ≤ p'.capacity ∧ newCapacity ≤ p'.capacity ∧ p'.inUse = p.inUse := by
  obtain ⟨⟨hle, hin⟩, hreached⟩ := grow_invariant (fun q => p.capacity ≤ q.capacity ∧ q.inUse = p.inUse)
    (fun _ _ _ hq => ⟨Nat.le_succ_of_le hq.1, hq.2⟩) ⟨le_rfl, rfl⟩ hrun
  exact ⟨hle, hreached, hin⟩

theorem setCapacity_larger {fuel newCapacity : ℕ} (hlt : p.capacity < newCapacity) :
    p.setCapacity fuel newCapacity = p.grow fuel newCapacity := by
  rw [MemoryPool.setCapacity, if_pos hlt]

theorem alloc_counters {fuel node : ℕ} {b : Block} (hrun : p.alloc fuel node = some (b, p')) :
    p'.inUse = p.inUse + 1 ∧ ((p.pop node ≠ none ∧ p'.capacity = p.capacity) ∨
      (p.pop node = none ∧ p.capacity * 2 ≤ p'.capacity)) := by
  obtain ⟨rest, -, hpop, rfl⟩ | ⟨q, hpop, hgrow, -, rfl⟩ := alloc_cases hrun
  · exact ⟨rfl, .inl ⟨by simp [hpop], rfl⟩⟩
  · obtain ⟨-, hreached, hin⟩ := grow_capacity hgrow
    exact ⟨congrArg (· + 1) hin, .inr ⟨hpop, hreached⟩⟩

theorem free_counters (p : MemoryPool) (node : ℕ) (b : Block) :
    (p.free node b).inUse = p.inUse - 1 ∧ (p.free node b).capacity = p.capacity := by
  unfold MemoryPool.free
  dsimp only
  split <;> exact ⟨rfl, rfl⟩

theorem alloc_nodes {fuel node : ℕ} {b : Block} (hrun : p.alloc fuel node = some (b, p')) :
    p'.pools.length = p.pools.length := by
  obtain ⟨rest, -, -, rfl⟩ | ⟨q, -, hgrow, -, rfl⟩ := alloc_cases hrun
  · exact List.length_set
  · exact (grow_invariant (fun q => q.pools.length = p.pools.length)
      (fun q n _ hq => (stocked_nodes q n).trans hq) rfl hgrow).1

private theorem free_nodes (p : MemoryPool) (node : ℕ) (b : Block) : (p.free node b).pools.length = p.pools.length := by
  unfold MemoryPool.free
  dsimp only
  split
  · exact push_nodes p node _
  · rfl

private theorem setCapacity_keeps {fuel newCapacity : ℕ} (hrun : p.setCapacity fuel newCapacity = some p') :
    p'.pools.length = p.pools.length ∧ p'.inUse = p.inUse := by
  apply setCapacity_invariant (fun q => q.pools.length = p.pools.length ∧ q.inUse = p.inUse) _ _ ⟨rfl, rfl⟩ hrun
  · intro q n _ hq
    exact ⟨(stocked_nodes q n).trans hq.1, hq.2⟩
  · intro q n b q' hq hpop
    obtain ⟨rest, -, rfl⟩ := pop_eq_some hpop
    exact ⟨List.length_set.trans hq.1, hq.2⟩

/-! ## Runs -/

def Calls (s : Run) (c : Call) (t : Run) : Prop := ∃ out, Exec s c out t

theorem Execs.invariant (P : Run → Prop) (hstep : ∀ s c out t, P s → Exec s c out t → P t) {s t : Run}
    {cs : List Call} {outs : List Block} (hrun : Execs s cs outs t) (hs : P s) : P t := by
  induction hrun with
  | done => exact hs
  | call hcall _ ih => exact ih (hstep _ _ _ _ hs hcall)

structure Sound (nodes blockSize : ℕ) (s : Run) : Prop where
  nodes_eq : s.pool.pools.length = nodes
  size_eq : s.pool.blockSize = blockSize
  zeroed : s.pool.Zeroed
  inUse_eq : s.pool.inUse = s.held.length
  held_size : ∀ b ∈ s.held, b.length = blockSize

theorem sound_new (nodes capacity blockSize : ℕ) : Sound nodes blockSize ⟨new nodes capacity blockSize, []⟩ where
  nodes_eq := by simp [new]
  size_eq := rfl
  zeroed := zeroed_new nodes capacity blockSize
  inUse_eq := rfl
  held_size := by simp

theorem Sound.exec {c : Call} {out : List Block} (h : Sound nodes blockSize s) (hexec : Exec s c out t) :
    Sound nodes blockSize t := by
  cases hexec with
  | alloc hrun =>
      obtain ⟨rfl, hzeroed, hsize⟩ := h.zeroed.alloc hrun
      have hblock : (allocNumaBlock s.pool.blockSize).length = blockSize := by
        rw [allocNumaBlock_length, h.size_eq]
      exact ⟨(alloc_nodes hrun).trans h.nodes_eq, hsize.trans h.size_eq, hzeroed,
        (alloc_counters hrun).1.trans (congrArg (· + 1) h.inUse_eq), List.forall_mem_cons.mpr ⟨hblock, h.held_size⟩⟩
  | write hheld hcontents =>
      refine ⟨h.nodes_eq, h.size_eq, h.zeroed, h.inUse_eq.trans List.length_set.symm, ?_⟩
      intro b hb
      rcases List.mem_or_eq_of_mem_set hb with hb | rfl
      · exact h.held_size b hb
      · exact hcontents.trans (h.held_size _ (List.mem_of_getElem? hheld))
  | @free node i b hheld =>
      have hblock := h.held_size b (List.mem_of_getElem? hheld)
      obtain ⟨hzeroed, hsize⟩ := h.zeroed.free (hblock.trans h.size_eq.symm) node
      have hin : (s.pool.free node b).inUse = (s.held.eraseIdx i).length := by
        rw [(free_counters s.pool node b).1, h.inUse_eq,
          List.length_eraseIdx_of_lt (List.getElem?_eq_some_iff.mp hheld).1]
      exact ⟨(free_nodes s.pool node b).trans h.nodes_eq, hsize.trans h.size_eq, hzeroed, hin,
        fun c hc => h.held_size c (List.mem_of_mem_eraseIdx hc)⟩
  | setCapacity hrun =>
      obtain ⟨hzeroed, hsize⟩ := h.zeroed.setCapacity hrun
      obtain ⟨hnodes, hin⟩ := setCapacity_keeps hrun
      exact ⟨hnodes.trans h.nodes_eq, hsize.trans h.size_eq, hzeroed, hin.trans h.inUse_eq, h.held_size⟩

theorem Execs.sound {capacity : ℕ} {cs : List Call} {outs : List Block}
    (hrun : Execs ⟨new nodes capacity blockSize, []⟩ cs outs s) : Sound nodes blockSize s :=
  hrun.invariant (Sound nodes blockSize) (fun _ _ _ _ hs hexec => hs.exec hexec)
    (sound_new nodes capacity blockSize)

end QuicFuscate.Optimize.MemoryPool
