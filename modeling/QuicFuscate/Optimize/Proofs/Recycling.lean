import QuicFuscate.Optimize.Proofs.MemoryPool

/-!
# Recycled blocks carry no data

Every way into a queue leaves a block of zeros: construction and growth add fresh blocks, and `free`
clears the block it is given.  Two runs that differ in what callers write into their blocks therefore
go through the same pools.
-/

namespace QuicFuscate.Optimize.MemoryPool

open Framework

def Zeroed (p : MemoryPool) : Prop := ∀ q ∈ p.pools, ∀ b ∈ q, b = allocNumaBlock p.blockSize

variable {p p' : MemoryPool} {blockSize : ℕ}

/-! ## Single operations -/

theorem Zeroed.push (h : Zeroed p) (n : ℕ) : Zeroed (p.push n (allocNumaBlock p.blockSize)) := by
  intro q hq b hb
  rcases mem_push hq b hb with rfl | ⟨q', hq', hb'⟩
  · rfl
  · exact h q' hq' b hb'

theorem Zeroed.pop {n : ℕ} {b : Block} (h : Zeroed p) (hpop : p.pop n = some (b, p')) :
    b = allocNumaBlock p.blockSize ∧ Zeroed p' ∧ p'.blockSize = p.blockSize := by
  obtain ⟨rest, hq, rfl⟩ := pop_eq_some hpop
  have hfront := h _ (List.mem_of_getElem? hq)
  refine ⟨hfront b List.mem_cons_self, ?_, rfl⟩
  intro q hmem c hc
  rcases List.mem_or_eq_of_mem_set hmem with hmem | rfl
  · exact h q hmem c hc
  · exact hfront c (List.mem_cons_of_mem _ hc)

theorem Zeroed.stocked (h : Zeroed p) (n : ℕ) : Zeroed (p.stocked n) := h.push n

theorem Zeroed.grow {fuel newCapacity : ℕ} (h : Zeroed p) (hrun : p.grow fuel newCapacity = some p') :
    Zeroed p' ∧ p'.blockSize = p.blockSize := by
  refine (grow_invariant (fun q => Zeroed q ∧ q.blockSize = p.blockSize) ?_ ⟨h, rfl⟩ hrun).1
  intro q n _ hq
  exact ⟨hq.1.stocked n, hq.2⟩

theorem Zeroed.setCapacity {fuel newCapacity : ℕ} (h : Zeroed p)
    (hrun : p.setCapacity fuel newCapacity = some p') : Zeroed p' ∧ p'.blockSize = p.blockSize := by
  apply setCapacity_invariant (fun q => Zeroed q ∧ q.blockSize = p.blockSize) _ _ ⟨h, rfl⟩ hrun
  · intro q n _ hq
    exact ⟨hq.1.stocked n, hq.2⟩
  · intro q n b q' hq hpop
    obtain ⟨-, hq', hsize⟩ := hq.1.pop hpop
    exact ⟨hq', hsize.trans hq.2⟩

theorem Zeroed.alloc {fuel node : ℕ} {b : Block} (h : Zeroed p) (hrun : p.alloc fuel node = some (b, p')) :
    b = allocNumaBlock p.blockSize ∧ Zeroed p' ∧ p'.blockSize = p.blockSize := by
  obtain ⟨rest, -, hpop, rfl⟩ | ⟨q, -, hgrow, rfl, rfl⟩ := alloc_cases hrun
  · obtain ⟨hfront, hq, hsize⟩ := h.pop hpop
    exact ⟨hfront, hq, hsize⟩
  · obtain ⟨hq, hsize⟩ := h.grow hgrow
    exact ⟨congrArg allocNumaBlock hsize, hq, hsize⟩

theorem free_eq {b : Block} (hb : b.length = p.blockSize) (node : ℕ) :
    p.free node b = p.free node (allocNumaBlock p.blockSize) := by
  have hclear : b.map (fun _ => (0 : UInt8)) = (allocNumaBlock p.blockSize).map fun _ => 0 := by
    simp [allocNumaBlock, List.map_const', hb]
  simp only [MemoryPool.free, hclear]

theorem Zeroed.free (h : Zeroed p) {b : Block} (hb : b.length = p.blockSize) (node : ℕ) :
    Zeroed (p.free node b) ∧ (p.free node b).blockSize = p.blockSize := by
  have hclear : b.map (fun _ => (0 : UInt8)) = allocNumaBlock p.blockSize := by
    simp [allocNumaBlock, List.map_const', hb]
  unfold MemoryPool.free
  dsimp only
  rw [hclear]
  split
  · exact ⟨h.push node, rfl⟩
  · exact ⟨h, rfl⟩

theorem zeroed_new (nodes capacity blockSize : ℕ) : Zeroed (new nodes capacity blockSize) := by
  intro q hq b hb
  obtain ⟨n, -, rfl⟩ := List.mem_map.mp hq
  exact List.eq_of_mem_replicate hb

theorem alloc_unique {fuel fuel' node : ℕ} {r r' : Block × MemoryPool} (h : p.alloc fuel node = some r)
    (h' : p.alloc fuel' node = some r') : r = r' := by
  unfold MemoryPool.alloc at h h'
  cases hpop : p.pop node with
  | some front =>
      rw [hpop] at h h'
      exact Option.some.inj (h.symm.trans h')
  | none =>
      rw [hpop] at h h'
      simp only [Option.bind_eq_bind, Option.bind_eq_some_iff] at h h'
      obtain ⟨q, hgrow, hq⟩ := h
      obtain ⟨q', hgrow', hq'⟩ := h'
      rw [whileLoop_unique hgrow hgrow'] at hq
      exact Option.some.inj (hq.symm.trans hq')

private theorem setCapacity_unique {fuel fuel' newCapacity : ℕ} {q q' : MemoryPool}
    (h : p.setCapacity fuel newCapacity = some q) (h' : p.setCapacity fuel' newCapacity = some q') : q = q' := by
  unfold MemoryPool.setCapacity at h h'
  split at h
  · rename_i hgrow
    rw [if_pos hgrow] at h'
    exact whileLoop_unique h h'
  · rename_i hshrink
    rw [if_neg hshrink] at h'
    simp only [Option.bind_eq_bind, Option.bind_eq_some_iff] at h h'
    obtain ⟨s, hloop, hq⟩ := h
    obtain ⟨s', hloop', hq'⟩ := h'
    rw [whileLoop_unique hloop hloop'] at hq
    exact Option.some.inj (hq.symm.trans hq')

/-! ## Runs -/

/-- An operation on a pool, or a caller that overwrites the block at place `i` of those it holds. -/
inductive Call
  | alloc (node : ℕ)
  | write (i : ℕ) (contents : Block)
  | free (node i : ℕ)
  | setCapacity (newCapacity : ℕ)

/-- One call, with the block that an allocation returns. -/
inductive Exec : Run → Call → List Block → Run → Prop
  | alloc {s : Run} {fuel node : ℕ} {b : Block} {p : MemoryPool} (hrun : s.pool.alloc fuel node = some (b, p)) :
      Exec s (.alloc node) [b] ⟨p, b :: s.held⟩
  | write {s : Run} {i : ℕ} {b contents : Block} (hheld : s.held[i]? = some b)
      (hcontents : contents.length = b.length) :
      Exec s (.write i contents) [] ⟨s.pool, s.held.set i contents⟩
  | free {s : Run} {node i : ℕ} {b : Block} (hheld : s.held[i]? = some b) :
      Exec s (.free node i) [] ⟨s.pool.free node b, s.held.eraseIdx i⟩
  | setCapacity {s : Run} {fuel newCapacity : ℕ} {p : MemoryPool}
      (hrun : s.pool.setCapacity fuel newCapacity = some p) : Exec s (.setCapacity newCapacity) [] ⟨p, s.held⟩

inductive Execs : Run → List Call → List Block → Run → Prop
  | done {s : Run} : Execs s [] [] s
  | call {s t u : Run} {c : Call} {cs : List Call} {out outs : List Block} (hcall : Exec s c out t)
      (hrest : Execs t cs outs u) : Execs s (c :: cs) (out ++ outs) u

inductive SameCall : Call → Call → Prop
  | alloc (node : ℕ) : SameCall (.alloc node) (.alloc node)
  | write (i : ℕ) (contents contents' : Block) : SameCall (.write i contents) (.write i contents')
  | free (node i : ℕ) : SameCall (.free node i) (.free node i)
  | setCapacity (newCapacity : ℕ) : SameCall (.setCapacity newCapacity) (.setCapacity newCapacity)

/-- The pools agree and hold no data; the held blocks may differ in their contents. -/
structure Agree (blockSize : ℕ) (s s' : Run) : Prop where
  pool_eq : s.pool = s'.pool
  zeroed : Zeroed s.pool
  size_eq : s.pool.blockSize = blockSize
  held_size : ∀ b ∈ s.held, b.length = blockSize
  held_size' : ∀ b ∈ s'.held, b.length = blockSize

theorem Agree.step {s s' t t' : Run} {c c' : Call} {out out' : List Block} (h : Agree blockSize s s')
    (hsame : SameCall c c') (hexec : Exec s c out t) (hexec' : Exec s' c' out' t') :
    Agree blockSize t t' ∧ out = out' ∧ ∀ b ∈ out, b = List.replicate blockSize 0 := by
  cases hsame with
  | alloc node =>
      cases hexec with | alloc hrun => cases hexec' with | alloc hrun' =>
      rw [← h.pool_eq] at hrun'
      obtain ⟨rfl, rfl⟩ := Prod.mk.inj (alloc_unique hrun hrun')
      obtain ⟨rfl, hzeroed, hsize⟩ := h.zeroed.alloc hrun
      rw [h.size_eq] at hsize
      have hblock : (allocNumaBlock s.pool.blockSize).length = blockSize := by
        rw [allocNumaBlock_length, h.size_eq]
      refine ⟨⟨rfl, hzeroed, hsize, List.forall_mem_cons.mpr ⟨hblock, h.held_size⟩,
        List.forall_mem_cons.mpr ⟨hblock, h.held_size'⟩⟩, rfl, ?_⟩
      intro b hb
      rw [List.mem_singleton.mp hb, h.size_eq]
      rfl
  | write i contents contents' =>
      cases hexec with | write hheld hlen => cases hexec' with | write hheld' hlen' =>
      have hsize : contents.length = blockSize := hlen.trans (h.held_size _ (List.mem_of_getElem? hheld))
      have hsize' : contents'.length = blockSize := hlen'.trans (h.held_size' _ (List.mem_of_getElem? hheld'))
      refine ⟨⟨h.pool_eq, h.zeroed, h.size_eq, ?_, ?_⟩, rfl, by simp⟩
      · intro b hb
        rcases List.mem_or_eq_of_mem_set hb with hb | rfl
        · exact h.held_size b hb
        · exact hsize
      · intro b hb
        rcases List.mem_or_eq_of_mem_set hb with hb | rfl
        · exact h.held_size' b hb
        · exact hsize'
  | free node i =>
      cases hexec with | free hheld => cases hexec' with | free hheld' =>
      have hsize := (h.held_size _ (List.mem_of_getElem? hheld)).trans h.size_eq.symm
      have hsize' := (h.held_size' _ (List.mem_of_getElem? hheld')).trans h.size_eq.symm
      obtain ⟨hzeroed, hsame⟩ := h.zeroed.free hsize node
      refine ⟨⟨?_, hzeroed, hsame.trans h.size_eq, ?_, ?_⟩, rfl, by simp⟩
      · rw [free_eq hsize node, ← h.pool_eq, free_eq hsize' node]
      · exact fun b hb => h.held_size b (List.mem_of_mem_eraseIdx hb)
      · exact fun b hb => h.held_size' b (List.mem_of_mem_eraseIdx hb)
  | setCapacity newCapacity =>
      cases hexec with | setCapacity hrun => cases hexec' with | setCapacity hrun' =>
      rw [← h.pool_eq] at hrun'
      obtain ⟨hzeroed, hsize⟩ := h.zeroed.setCapacity hrun
      exact ⟨⟨setCapacity_unique hrun hrun', hzeroed, hsize.trans h.size_eq, h.held_size, h.held_size'⟩,
        rfl, by simp⟩

theorem Agree.run {s s' t t' : Run} {cs cs' : List Call} {outs outs' : List Block} (h : Agree blockSize s s')
    (hsame : List.Forall₂ SameCall cs cs') (hexec : Execs s cs outs t) (hexec' : Execs s' cs' outs' t') :
    outs = outs' ∧ ∀ b ∈ outs, b = List.replicate blockSize 0 := by
  induction hexec generalizing s' cs' outs' with
  | done =>
      cases hsame
      cases hexec'
      exact ⟨rfl, by simp⟩
  | call hcall _ ih =>
      cases hsame with
      | cons hfirst hrest =>
          cases hexec' with
          | call hcall' hrest' =>
              obtain ⟨hagree, rfl, hzero⟩ := h.step hfirst hcall hcall'
              obtain ⟨rfl, hzeros⟩ := ih hagree hrest hrest'
              exact ⟨rfl, List.forall_mem_append.mpr ⟨hzero, hzeros⟩⟩

/-- What callers write into their blocks does not show in any block that is handed out later. -/
theorem recycled_blocks_zero (nodes capacity blockSize : ℕ) {cs cs' : List Call} {outs outs' : List Block}
    {t t' : Run} (hsame : List.Forall₂ SameCall cs cs')
    (hexec : Execs ⟨new nodes capacity blockSize, []⟩ cs outs t)
    (hexec' : Execs ⟨new nodes capacity blockSize, []⟩ cs' outs' t') :
    outs = outs' ∧ ∀ b ∈ outs, b = List.replicate blockSize 0 := by
  have hstart : Agree blockSize ⟨new nodes capacity blockSize, []⟩ ⟨new nodes capacity blockSize, []⟩ :=
    ⟨rfl, zeroed_new nodes capacity blockSize, rfl, by simp, by simp⟩
  exact hstart.run hsame hexec hexec'

theorem recycled_blocks_zero_single_block : ∃ t t',
    Execs ⟨new 1 1 2, []⟩ [.alloc 0, .write 0 [7, 7], .free 0 0, .alloc 0] [[0, 0], [0, 0]] t ∧
    Execs ⟨new 1 1 2, []⟩ [.alloc 0, .write 0 [8, 9], .free 0 0, .alloc 0] [[0, 0], [0, 0]] t' ∧
    ∀ b ∈ ([[0, 0], [0, 0]] : List Block), b = List.replicate 2 0 := by
  have hrun : ∀ contents : Block, contents.length = 2 → Execs ⟨new 1 1 2, []⟩
      [.alloc 0, .write 0 contents, .free 0 0, .alloc 0] ([[0, 0]] ++ ([] ++ ([] ++ ([[0, 0]] ++ []))))
      ⟨⟨[[]], 2, 1, 1, 0⟩, [[0, 0]]⟩ := by
    intro contents hlen
    have hfree : (⟨[[]], 2, 1, 1, 0⟩ : MemoryPool).free 0 contents = ⟨[[[0, 0]]], 2, 1, 0, 1⟩ :=
      free_eq (p := ⟨[[]], 2, 1, 1, 0⟩) hlen 0
    have hfreed := @Exec.free ⟨⟨[[]], 2, 1, 1, 0⟩, [contents]⟩ 0 0 contents rfl
    rw [hfree] at hfreed
    exact .call (@Exec.alloc _ 0 0 [0, 0] ⟨[[]], 2, 1, 1, 0⟩ rfl)
      (.call (@Exec.write ⟨⟨[[]], 2, 1, 1, 0⟩, [[0, 0]]⟩ 0 [0, 0] contents rfl hlen)
        (.call hfreed (.call (@Exec.alloc ⟨⟨[[[0, 0]]], 2, 1, 0, 1⟩, []⟩ 0 0 [0, 0] ⟨[[]], 2, 1, 1, 0⟩ rfl) .done)))
  have hsame : List.Forall₂ SameCall [.alloc 0, .write 0 [7, 7], .free 0 0, .alloc 0]
      [.alloc 0, .write 0 [8, 9], .free 0 0, .alloc 0] :=
    .cons (.alloc 0) (.cons (.write 0 _ _) (.cons (.free 0 0) (.cons (.alloc 0) .nil)))
  have h := hrun [7, 7] rfl
  have h' := hrun [8, 9] rfl
  exact ⟨_, _, h, h', (recycled_blocks_zero 1 1 2 hsame h h').2⟩

end QuicFuscate.Optimize.MemoryPool
