import Mathlib.Algebra.BigOperators.Group.List.Lemmas
import Mathlib.Algebra.Order.BigOperators.Group.List
import Mathlib.Algebra.Ring.Nat
import Mathlib.Logic.Relation
import QuicFuscate.Framework.Interleaving
import QuicFuscate.Optimize.MemoryPool

/-!
# Accounting of the memory pool

`Counted` is the part of the accounting that speaks of the pool alone; growing and shrinking keep
it and the difference between `capacity` and `available`.  The handed-out blocks are a ghost list
beside the pool.
-/

namespace QuicFuscate.Optimize.MemoryPool

open Framework

def queued (p : MemoryPool) : ℕ := (p.pools.map List.length).sum

/-- A pool over `nodes` queues whose `available` counter is right and whose blocks have one size. -/
structure Counted (nodes : ℕ) (p : MemoryPool) : Prop where
  nodes_eq : p.pools.length = nodes
  available_eq : p.available = p.queued
  available_le : p.available ≤ p.capacity
  size_eq : ∀ q ∈ p.pools, ∀ b ∈ q, b.length = p.blockSize

variable {nodes : ℕ} {p p' : MemoryPool}

/-! ## Queues -/

private theorem sum_length_modify (qs : List (List Block)) {n : ℕ} (hn : n < qs.length) (b : Block) :
    ((qs.modify n (· ++ [b])).map List.length).sum = (qs.map List.length).sum + 1 := by
  have hset := Threads.sum_map_set List.length (List.getElem?_eq_getElem hn) (qs[n] ++ [b])
  rw [List.length_append, List.length_singleton] at hset
  rw [List.modify_eq_set, List.getElem?_eq_getElem hn, Option.getD_some]
  omega

private theorem sum_length_set {qs : List (List Block)} {n : ℕ} {b : Block} {rest : List Block}
    (hn : qs[n]? = some (b :: rest)) :
    ((qs.set n rest).map List.length).sum + 1 = (qs.map List.length).sum := by
  have hset := Threads.sum_map_set List.length hn rest
  rw [List.length_cons] at hset
  omega

theorem push_queued {n : ℕ} (hn : n < p.pools.length) (b : Block) : (p.push n b).queued = p.queued + 1 :=
  sum_length_modify p.pools hn b

theorem push_nodes (p : MemoryPool) (n : ℕ) (b : Block) : (p.push n b).pools.length = p.pools.length :=
  List.length_modify _ _ _

/-- A push to a node without a queue adds nothing, and is not waited for. -/
theorem push_queued_eq (p : MemoryPool) (n : ℕ) (b : Block) :
    (p.push n b).queued = p.queued + if n < p.pools.length then 1 else 0 := by
  split
  · rename_i hn
    exact push_queued hn b
  · rename_i hn
    rw [push, List.modify_eq_self (by omega)]
    rfl

theorem mem_push {n : ℕ} {b : Block} {q : List Block} (hq : q ∈ (p.push n b).pools) :
    ∀ c ∈ q, c = b ∨ ∃ q' ∈ p.pools, c ∈ q' := by
  intro c hc
  obtain ⟨i, hi, rfl⟩ := List.mem_iff_getElem.mp hq
  have hi' : i < p.pools.length := by simpa [push] using hi
  have hmem : p.pools[i] ∈ p.pools := List.getElem_mem _
  simp only [push, List.getElem_modify] at hc
  split at hc
  · rcases List.mem_append.mp hc with hc | hc
    · exact .inr ⟨_, hmem, hc⟩
    · exact .inl (by simpa using hc)
  · exact .inr ⟨_, hmem, hc⟩

theorem pop_eq_some {n : ℕ} {b : Block} (h : p.pop n = some (b, p')) :
    ∃ rest, p.pools[n]? = some (b :: rest) ∧ p' = { p with pools := p.pools.set n rest } := by
  unfold pop at h
  split at h
  · rename_i hq
    simp only [Option.some.injEq, Prod.mk.injEq] at h
    obtain ⟨rfl, rfl⟩ := h
    exact ⟨_, hq, rfl⟩
  · simp at h

theorem pop_queued {n : ℕ} {b : Block} (h : p.pop n = some (b, p')) : p'.queued + 1 = p.queued := by
  obtain ⟨rest, hq, rfl⟩ := pop_eq_some h
  exact sum_length_set hq

private theorem pop_isSome {n : ℕ} {q : List Block} (hq : p.pools[n]? = some q) (hne : q ≠ []) :
    ∃ b p', p.pop n = some (b, p') := by
  obtain ⟨b, rest, rfl⟩ := List.exists_cons_of_ne_nil hne
  exact ⟨b, _, by rw [pop, hq]⟩

/-! ## Growing and shrinking -/

/-- The pools that differ in their queues, with `capacity` and `available` moved by one amount. -/
structure Resized (p p' : MemoryPool) : Prop where
  blockSize_eq : p'.blockSize = p.blockSize
  inUse_eq : p'.inUse = p.inUse
  gap_eq : p'.capacity + p.available = p.capacity + p'.available

theorem Resized.refl (p : MemoryPool) : Resized p p := ⟨rfl, rfl, rfl⟩

theorem Resized.trans {q : MemoryPool} (h : Resized p p') (h' : Resized p' q) : Resized p q where
  blockSize_eq := h'.blockSize_eq.trans h.blockSize_eq
  inUse_eq := h'.inUse_eq.trans h.inUse_eq
  gap_eq := by have := h.gap_eq; have := h'.gap_eq; omega

def stocked (p : MemoryPool) (n : ℕ) : MemoryPool :=
  { p.push n (allocNumaBlock p.blockSize) with available := p.available + 1, capacity := p.capacity + 1 }

@[simp] theorem stocked_nodes (p : MemoryPool) (n : ℕ) : (p.stocked n).pools.length = p.pools.length :=
  push_nodes p n _

theorem Counted.stocked (h : Counted nodes p) {n : ℕ} (hn : n < nodes) : Counted nodes (p.stocked n) where
  nodes_eq := by simpa [MemoryPool.stocked, push] using h.nodes_eq
  available_eq := by
    have hq := push_queued (p := p) (h.nodes_eq.symm ▸ hn) (allocNumaBlock p.blockSize)
    have ha := h.available_eq
    change p.available + 1 = (p.push n (allocNumaBlock p.blockSize)).queued
    omega
  available_le := Nat.succ_le_succ h.available_le
  size_eq := by
    intro q hq b hb
    rcases mem_push hq b hb with rfl | ⟨q', hq', hb'⟩
    · exact allocNumaBlock_length _
    · exact h.size_eq q' hq' b hb'

private theorem resized_stocked (p : MemoryPool) (n : ℕ) : Resized p (p.stocked n) where
  blockSize_eq := rfl
  inUse_eq := rfl
  gap_eq := by simp only [stocked]; omega

theorem growPass_invariant (P : MemoryPool → Prop) (hstocked : ∀ q n, n < q.pools.length → P q → P (q.stocked n))
    (newCapacity : ℕ) {count n : ℕ} (hn : n + count ≤ p.pools.length) (h : P p) :
    P (growPass newCapacity count n p) := by
  induction count generalizing n p with
  | zero => exact h
  | succ count ih =>
      rw [growPass]
      split
      · exact h
      · apply ih (p := p.stocked n) (n := n + 1)
        · rw [stocked_nodes]
          omega
        · exact hstocked p n (by omega) h

theorem grow_invariant (P : MemoryPool → Prop) (hstocked : ∀ q n, n < q.pools.length → P q → P (q.stocked n))
    {fuel newCapacity : ℕ} (h : P p) (hrun : p.grow fuel newCapacity = some p') : P p' ∧ newCapacity ≤ p'.capacity := by
  obtain ⟨hp', hdone⟩ := whileLoop_invariant P
    (fun q hq _ => growPass_invariant P hstocked newCapacity (Nat.zero_add _).le hq) h hrun
  exact ⟨hp', by simpa using hdone⟩

private theorem growPass_capacity_lt {newCapacity : ℕ} (hnodes : 0 < p.pools.length) (hlt : p.capacity < newCapacity) :
    p.capacity < (growPass newCapacity p.pools.length 0 p).capacity := by
  obtain ⟨count, hcount⟩ := Nat.exists_eq_add_one.mpr hnodes
  rw [hcount, growPass, if_neg (by omega)]
  apply growPass_invariant (p := p.stocked 0) (fun q => p.capacity < q.capacity)
  · intro q n _ hq
    exact Nat.lt_succ_of_lt hq
  · rw [stocked_nodes]
    omega
  · exact Nat.lt_succ_self _

private theorem grow_terminates (hnodes : 0 < p.pools.length) (newCapacity : ℕ) :
    ∃ p', p.grow (newCapacity - p.capacity + 1) newCapacity = some p' := by
  refine whileLoop_terminates (fun q => 0 < q.pools.length) (fun q => newCapacity - q.capacity) ?_ hnodes
    (Nat.lt_succ_self _)
  intro q hq hlt
  have hlt : q.capacity < newCapacity := by simpa using hlt
  have hmore := growPass_capacity_lt hq hlt
  refine ⟨growPass_invariant (fun q => 0 < q.pools.length) ?_ newCapacity (Nat.zero_add _).le hq, by omega⟩
  intro r n _ hr
  rwa [stocked_nodes]

theorem grow_counted {fuel newCapacity : ℕ} (h : Counted nodes p) (hrun : p.grow fuel newCapacity = some p') :
    Counted nodes p' ∧ Resized p p' := by
  refine (grow_invariant (fun q => Counted nodes q ∧ Resized p q) ?_ ⟨h, Resized.refl p⟩ hrun).1
  intro q n hn hq
  exact ⟨hq.1.stocked (hq.1.nodes_eq ▸ hn), hq.2.trans (resized_stocked q n)⟩

def shed (p : MemoryPool) : MemoryPool :=
  { p with available := p.available - 1, capacity := p.capacity - 1 }

/-- A pop takes a counted block; `capacity` and `available` are still to be adjusted. -/
theorem Counted.popped {n : ℕ} {b : Block} (h : Counted nodes p) (hpop : p.pop n = some (b, p')) :
    p'.pools.length = nodes ∧ 0 < p.available ∧ p.available - 1 = p'.queued ∧ b.length = p.blockSize ∧
      ∀ q ∈ p'.pools, ∀ c ∈ q, c.length = p.blockSize := by
  have hqueued := pop_queued hpop
  have havail := h.available_eq
  obtain ⟨rest, hq, rfl⟩ := pop_eq_some hpop
  have hfront := h.size_eq _ (List.mem_of_getElem? hq)
  refine ⟨by simpa using h.nodes_eq, by omega, by omega, hfront b List.mem_cons_self, ?_⟩
  intro q hmem c hc
  rcases List.mem_or_eq_of_mem_set hmem with hmem | rfl
  · exact h.size_eq q hmem c hc
  · exact hfront c (List.mem_cons_of_mem _ hc)

theorem Counted.shed {n : ℕ} {b : Block} (h : Counted nodes p) (hpop : p.pop n = some (b, p')) :
    Counted nodes p'.shed ∧ Resized p p'.shed := by
  obtain ⟨hnodes, hpos, havail, -, hsize⟩ := h.popped hpop
  obtain ⟨rest, hq, rfl⟩ := pop_eq_some hpop
  have hle := h.available_le
  refine ⟨⟨hnodes, havail, Nat.sub_le_sub_right hle 1, hsize⟩, rfl, rfl, ?_⟩
  simp only [MemoryPool.shed]
  omega

theorem shrinkPass_invariant (P : ℕ × MemoryPool → Prop)
    (hshed : ∀ diff q n b q', 0 < diff → P (diff, q) → q.pop n = some (b, q') → P (diff - 1, q'.shed))
    (count n : ℕ) {s : ℕ × MemoryPool} (h : P s) : P (shrinkPass count n s) := by
  induction count generalizing n s with
  | zero => exact h
  | succ count ih =>
      obtain ⟨diff, p⟩ := s
      rw [shrinkPass]
      split
      · exact h
      · rename_i hdiff
        split
        · rename_i b q hpop
          exact ih (n + 1) (hshed diff p n b q (by omega) h hpop)
        · exact ih (n + 1) h

private theorem shrinkPass_fst_le (count n : ℕ) (s : ℕ × MemoryPool) : (shrinkPass count n s).1 ≤ s.1 := by
  apply shrinkPass_invariant (fun s' => s'.1 ≤ s.1)
  · intro diff q n b q' _ hle _
    exact (Nat.sub_le _ _).trans hle
  · exact le_rfl

private theorem shrinkPass_diff_lt {count n diff i : ℕ} {q : List Block} (hdiff : 0 < diff)
    (hi : n ≤ i) (hi' : i < n + count) (hq : p.pools[i]? = some q) (hne : q ≠ []) :
    (shrinkPass count n (diff, p)).1 < diff := by
  induction count generalizing n with
  | zero => omega
  | succ count ih =>
      rw [shrinkPass, if_neg (by omega)]
      split
      · rename_i b q' hpop
        have hle := shrinkPass_fst_le count (n + 1) (diff - 1, q'.shed)
        simp only [MemoryPool.shed] at hle
        omega
      · rename_i hpop
        refine ih ?_ (by omega)
        rcases Nat.lt_or_ge n i with hlt | hge
        · exact hlt
        · obtain ⟨b, p', hsome⟩ := pop_isSome (p := p) (n := n) ((by omega : i = n) ▸ hq) hne
          rw [hpop] at hsome
          simp at hsome

private theorem exists_queue_of_queued_pos (h : 0 < p.queued) :
    ∃ (i : ℕ) (q : List Block), p.pools[i]? = some q ∧ q ≠ [] := by
  by_contra hempty
  push Not at hempty
  have hzero : ∀ len ∈ p.pools.map List.length, len = 0 := by
    intro len hlen
    obtain ⟨q, hq, rfl⟩ := List.mem_map.mp hlen
    obtain ⟨i, hi⟩ := List.mem_iff_getElem?.mp hq
    rw [hempty i q hi, List.length_nil]
  have hsum : p.queued = 0 := List.sum_eq_zero hzero
  omega

private theorem shrinkPass_progress {diff : ℕ} (hdiff : 0 < diff) (hqueued : 0 < p.queued) :
    (shrinkPass p.pools.length 0 (diff, p)).1 < diff := by
  obtain ⟨i, queue, hi, hne⟩ := exists_queue_of_queued_pos hqueued
  have hlt := (List.getElem?_eq_some_iff.mp hi).1
  exact shrinkPass_diff_lt hdiff (Nat.zero_le i) (by omega) hi hne

theorem setCapacity_invariant (P : MemoryPool → Prop)
    (hstocked : ∀ q n, n < q.pools.length → P q → P (q.stocked n))
    (hshed : ∀ q n b q', P q → q.pop n = some (b, q') → P q'.shed) {fuel newCapacity : ℕ} (h : P p)
    (hrun : p.setCapacity fuel newCapacity = some p') : P p' := by
  unfold setCapacity at hrun
  split at hrun
  · exact (grow_invariant P hstocked h hrun).1
  · simp only [Option.bind_eq_bind, Option.bind_eq_some_iff] at hrun
    obtain ⟨s, hloop, hs⟩ := hrun
    rw [← Option.some.inj hs]
    refine (whileLoop_invariant (fun s => P s.2) ?_ h hloop).1
    intro s hs _
    exact shrinkPass_invariant (fun s => P s.2) (fun diff q n b q' _ hq hpop => hshed q n b q' hq hpop) _ 0 hs

private theorem setCapacity_counted {fuel newCapacity : ℕ} (h : Counted nodes p)
    (hrun : p.setCapacity fuel newCapacity = some p') : Counted nodes p' ∧ Resized p p' := by
  apply setCapacity_invariant (fun q => Counted nodes q ∧ Resized p q) _ _ ⟨h, Resized.refl p⟩ hrun
  · intro q n hn hq
    exact ⟨hq.1.stocked (hq.1.nodes_eq ▸ hn), hq.2.trans (resized_stocked q n)⟩
  · intro q n b q' hq hpop
    obtain ⟨hc, hr⟩ := hq.1.shed hpop
    exact ⟨hc, hq.2.trans hr⟩

/-- The shrinking loop ends when every pass that the counters ask for finds a block. -/
theorem setCapacity_terminates_of (Inv : ℕ × MemoryPool → Prop)
    (hshed : ∀ diff q n b q', 0 < diff → Inv (diff, q) → q.pop n = some (b, q') → Inv (diff - 1, q'.shed))
    (hqueued : ∀ diff q, Inv (diff, q) → 0 < diff → 0 < q.available → 0 < q.queued) (hnodes : 0 < p.pools.length)
    {newCapacity : ℕ} (h : Inv (p.capacity - newCapacity, p)) :
    ∃ fuel p', p.setCapacity fuel newCapacity = some p' := by
  unfold setCapacity
  split
  · exact ⟨_, grow_terminates hnodes newCapacity⟩
  · have hpass : ∀ s, Inv s → decide (s.1 > 0 ∧ s.2.available > 0) = true →
        Inv (shrinkPass s.2.pools.length 0 s) ∧ (shrinkPass s.2.pools.length 0 s).1 < s.1 := by
      rintro ⟨diff, q⟩ hq hcond
      have hcond : 0 < diff ∧ 0 < q.available := by simpa using hcond
      exact ⟨shrinkPass_invariant Inv hshed _ 0 hq,
        shrinkPass_progress hcond.1 (hqueued diff q hq hcond.1 hcond.2)⟩
    obtain ⟨s, hs⟩ := whileLoop_terminates Inv Prod.fst hpass h (Nat.lt_succ_self _)
    exact ⟨_, s.2, by rw [hs]; rfl⟩

/-- The shrinking loop stops on the counters; since they agree with the queues, every pass finds
a block. -/
theorem setCapacity_terminates (hnodes : 0 < nodes) (h : Counted nodes p) (newCapacity : ℕ) :
    ∃ fuel p', p.setCapacity fuel newCapacity = some p' := by
  apply setCapacity_terminates_of (fun s => Counted nodes s.2)
  · intro diff q n b q' _ hq hpop
    exact (hq.shed hpop).1
  · intro diff q hq _ hpos
    exact hq.available_eq ▸ hpos
  · exact h.nodes_eq.symm ▸ hnodes
  · exact h

/-- Doubling the capacity takes at most as many passes as there are blocks to add. -/
theorem alloc_terminates (hnodes : 0 < p.pools.length) (node : ℕ) : ∃ r, p.alloc (p.capacity + 1) node = some r := by
  obtain ⟨p', hgrow⟩ := grow_terminates hnodes (p.capacity * 2)
  rw [show p.capacity * 2 - p.capacity = p.capacity by omega] at hgrow
  unfold alloc
  split
  · exact ⟨_, rfl⟩
  · exact ⟨_, by rw [hgrow]; rfl⟩

theorem alloc_cases {fuel node : ℕ} {b : Block} (hrun : p.alloc fuel node = some (b, p')) :
    (∃ rest, p.pools[node]? = some (b :: rest) ∧ p.pop node = some (b, { p with pools := p.pools.set node rest }) ∧
      p' = { p with pools := p.pools.set node rest, available := p.available - 1, inUse := p.inUse + 1 }) ∨
    ∃ q, p.pop node = none ∧ p.grow fuel (p.capacity * 2) = some q ∧ b = allocNumaBlock q.blockSize ∧
      p' = { q with inUse := q.inUse + 1 } := by
  unfold alloc at hrun
  split at hrun
  · rename_i front q hpop
    obtain ⟨rest, hfront, rfl⟩ := pop_eq_some hpop
    simp only [Option.some.injEq, Prod.mk.injEq] at hrun
    obtain ⟨rfl, rfl⟩ := hrun
    exact .inl ⟨rest, hfront, hpop, rfl⟩
  · rename_i hpop
    simp only [Option.bind_eq_bind, Option.bind_eq_some_iff, Option.pure_def, Option.some.injEq,
      Prod.mk.injEq] at hrun
    obtain ⟨q, hgrow, hb, hq⟩ := hrun
    exact .inr ⟨q, hpop, hgrow, hb.symm, hq.symm⟩

/-! ## Runs -/

/-- A pool with the blocks its callers hold. -/
structure Run where
  pool : MemoryPool
  held : List Block

/-- One call.  The caller of `free` has written what it liked into the block it returns. -/
inductive Step : Run → Run → Prop
  | alloc {s : Run} {fuel node : ℕ} {b : Block} {p : MemoryPool} (hnode : node < s.pool.pools.length)
      (hrun : s.pool.alloc fuel node = some (b, p)) : Step s ⟨p, b :: s.held⟩
  | free {s : Run} {node i : ℕ} {b contents : Block} (hnode : node < s.pool.pools.length)
      (hheld : s.held[i]? = some b) (hcontents : contents.length = b.length) :
      Step s ⟨s.pool.free node contents, s.held.eraseIdx i⟩
  | setCapacity {s : Run} {fuel newCapacity : ℕ} {p : MemoryPool}
      (hrun : s.pool.setCapacity fuel newCapacity = some p) : Step s ⟨p, s.held⟩

/-- The states of a pool over `nodes` queues. -/
def Reachable (nodes capacity blockSize : ℕ) : Run → Prop :=
  Relation.ReflTransGen Step ⟨new nodes capacity blockSize, []⟩

structure Accounting (blockSize : ℕ) (s : Run) : Prop where
  blockSize_eq : s.pool.blockSize = blockSize
  available_eq : s.pool.available = s.pool.queued
  inUse_eq : s.pool.inUse = s.held.length
  available_le : s.pool.available ≤ s.pool.capacity
  capacity_le : s.pool.capacity ≤ s.pool.available + s.pool.inUse
  size_eq : ∀ q ∈ s.pool.pools, ∀ b ∈ q, b.length = blockSize

/-- The accounting with what its preservation needs. -/
structure Invariant (nodes blockSize : ℕ) (s : Run) : Prop extends Accounting blockSize s where
  nodes_eq : s.pool.pools.length = nodes
  held_size : ∀ b ∈ s.held, b.length = blockSize

variable {blockSize : ℕ} {s t : Run}

theorem Invariant.counted (h : Invariant nodes blockSize s) : Counted nodes s.pool where
  nodes_eq := h.nodes_eq
  available_eq := h.available_eq
  available_le := h.available_le
  size_eq := h.blockSize_eq.symm ▸ h.size_eq

/-- Growing and shrinking keep the accounting, since they keep the gap between the counters. -/
theorem Invariant.resized (h : Invariant nodes blockSize s) (hc : Counted nodes p) (hr : Resized s.pool p) :
    Invariant nodes blockSize ⟨p, s.held⟩ where
  blockSize_eq := hr.blockSize_eq.trans h.blockSize_eq
  available_eq := hc.available_eq
  inUse_eq := hr.inUse_eq.trans h.inUse_eq
  available_le := hc.available_le
  capacity_le := by
    have := hr.gap_eq
    have := hr.inUse_eq
    have := h.capacity_le
    dsimp only
    omega
  size_eq := by
    have hsize := hc.size_eq
    rwa [hr.blockSize_eq, h.blockSize_eq] at hsize
  nodes_eq := hc.nodes_eq
  held_size := h.held_size

private theorem sum_nodeCap {nodes : ℕ} (hnodes : 0 < nodes) (capacity : ℕ) :
    ((List.range nodes).map (nodeCap nodes capacity)).sum = capacity := by
  have hshare : ∀ m ≤ nodes, ((List.range m).map (nodeCap nodes capacity)).sum =
      m * (capacity / nodes) + min m (capacity % nodes) := by
    intro m
    induction m with
    | zero => simp
    | succ m ih =>
        intro hm
        rw [List.range_succ, List.map_append, List.sum_append, ih (by omega), List.map_singleton,
          List.sum_singleton, nodeCap, Nat.succ_mul]
        split <;> omega
  have hlt := Nat.mod_lt capacity hnodes
  rw [hshare nodes le_rfl, Nat.min_eq_right hlt.le]
  exact Nat.div_add_mod capacity nodes

private theorem new_pools_length (nodes capacity blockSize : ℕ) :
    (new nodes capacity blockSize).pools.map List.length = (List.range nodes).map (nodeCap nodes capacity) := by
  simp [new, Function.comp_def]

theorem new_queued_le (nodes capacity blockSize : ℕ) : (new nodes capacity blockSize).queued ≤ capacity := by
  rw [queued, new_pools_length]
  cases nodes with
  | zero => exact Nat.zero_le _
  | succ n => rw [sum_nodeCap (Nat.succ_pos n)]

theorem invariant_new (hnodes : 0 < nodes) (capacity blockSize : ℕ) :
    Invariant nodes blockSize ⟨new nodes capacity blockSize, []⟩ where
  blockSize_eq := rfl
  available_eq := by
    rw [queued, new_pools_length, sum_nodeCap hnodes]
    rfl
  inUse_eq := rfl
  available_le := le_rfl
  capacity_le := Nat.le_add_right _ _
  size_eq := by
    intro q hq b hb
    obtain ⟨n, -, rfl⟩ := List.mem_map.mp hq
    rw [List.eq_of_mem_replicate hb, allocNumaBlock_length]
  nodes_eq := by simp [new]
  held_size := by simp

theorem Invariant.alloc {fuel node : ℕ} {b : Block} (h : Invariant nodes blockSize s)
    (hrun : s.pool.alloc fuel node = some (b, p)) : Invariant nodes blockSize ⟨p, b :: s.held⟩ := by
  obtain ⟨rest, -, hpop, rfl⟩ | ⟨q, -, hgrow, rfl, rfl⟩ := alloc_cases hrun
  · obtain ⟨hlen, hpos, havail, hfront, hsize⟩ := h.counted.popped hpop
    have hin := h.inUse_eq
    have hle := h.available_le
    have hcap := h.capacity_le
    rw [h.blockSize_eq] at hfront hsize
    exact
      { blockSize_eq := h.blockSize_eq
        available_eq := havail
        inUse_eq := congrArg (· + 1) hin
        available_le := (Nat.sub_le _ _).trans hle
        capacity_le := by dsimp only; omega
        size_eq := hsize
        nodes_eq := hlen
        held_size := List.forall_mem_cons.mpr ⟨hfront, h.held_size⟩ }
  · have hq := h.resized (grow_counted h.counted hgrow).1 (grow_counted h.counted hgrow).2
    exact
      { blockSize_eq := hq.blockSize_eq
        available_eq := hq.available_eq
        inUse_eq := congrArg (· + 1) hq.inUse_eq
        available_le := hq.available_le
        capacity_le := hq.capacity_le.trans (Nat.le_succ _)
        size_eq := hq.size_eq
        nodes_eq := hq.nodes_eq
        held_size := List.forall_mem_cons.mpr
          ⟨(allocNumaBlock_length _).trans hq.blockSize_eq, hq.held_size⟩ }

theorem Invariant.free {node i : ℕ} {b contents : Block} (h : Invariant nodes blockSize s)
    (hnode : node < s.pool.pools.length) (hheld : s.held[i]? = some b)
    (hcontents : contents.length = b.length) :
    Invariant nodes blockSize ⟨s.pool.free node contents, s.held.eraseIdx i⟩ := by
  obtain ⟨hi, rfl⟩ := List.getElem?_eq_some_iff.mp hheld
  have hin : s.pool.inUse - 1 = (s.held.eraseIdx i).length := by
    rw [List.length_eraseIdx_of_lt hi, h.inUse_eq]
  have hkept : ∀ c ∈ s.held.eraseIdx i, c.length = blockSize := fun c hc =>
    h.held_size c (List.mem_of_mem_eraseIdx hc)
  unfold MemoryPool.free
  split
  · rename_i hroom
    have hqueued := push_queued hnode (contents.map fun _ => 0)
    have havail := h.available_eq
    exact
      { blockSize_eq := h.blockSize_eq
        available_eq := by
          change s.pool.available + 1 = (s.pool.push node (contents.map fun _ => 0)).queued
          omega
        inUse_eq := hin
        available_le := hroom
        capacity_le := by
          have hcap := h.capacity_le
          change s.pool.capacity ≤ s.pool.available + 1 + (s.pool.inUse - 1)
          omega
        size_eq := by
          intro q hq c hc
          rcases mem_push hq c hc with rfl | ⟨q', hq', hc'⟩
          · rw [List.length_map, hcontents]
            exact h.held_size _ (List.getElem_mem hi)
          · exact h.size_eq q' hq' c hc'
        nodes_eq := by simpa [push] using h.nodes_eq
        held_size := hkept }
  · rename_i hfull
    exact
      { blockSize_eq := h.blockSize_eq
        available_eq := h.available_eq
        inUse_eq := hin
        available_le := h.available_le
        capacity_le := by
          change s.pool.capacity ≤ s.pool.available + (s.pool.inUse - 1)
          omega
        size_eq := h.size_eq
        nodes_eq := h.nodes_eq
        held_size := hkept }

theorem Invariant.step (h : Invariant nodes blockSize s) (hstep : Step s t) : Invariant nodes blockSize t := by
  cases hstep with
  | alloc _ hrun => exact h.alloc hrun
  | free hnode hheld hcontents => exact h.free hnode hheld hcontents
  | setCapacity hrun =>
      have hc := setCapacity_counted h.counted hrun
      exact h.resized hc.1 hc.2

theorem Reachable.invariant (hnodes : 0 < nodes) {capacity : ℕ} (h : Reachable nodes capacity blockSize s) :
    Invariant nodes blockSize s := by
  induction h with
  | refl => exact invariant_new hnodes capacity blockSize
  | tail _ hstep ih => exact ih.step hstep

/-- In every state the counters agree with the blocks, and every call that loops comes to an end. -/
theorem reachable_accounting (hnodes : 0 < nodes) {capacity : ℕ}
    (h : Reachable nodes capacity blockSize s) :
    Accounting blockSize s ∧
      (∀ newCapacity, ∃ fuel p, s.pool.grow fuel newCapacity = some p) ∧
      (∀ newCapacity, ∃ fuel p, s.pool.setCapacity fuel newCapacity = some p) ∧
      ∀ node < nodes, ∃ fuel r, s.pool.alloc fuel node = some r := by
  have hinv := h.invariant hnodes
  have hqueues : 0 < s.pool.pools.length := hinv.nodes_eq.symm ▸ hnodes
  exact ⟨hinv.toAccounting, fun newCapacity => ⟨_, grow_terminates hqueues newCapacity⟩,
    setCapacity_terminates hnodes hinv.counted, fun node _ => ⟨_, alloc_terminates hqueues node⟩⟩

/-- A run over two nodes that grows, frees into the other node and shrinks. -/
theorem reachable_accounting_two_nodes : ∃ s, Reachable 2 1 4 s ∧ s.pool.capacity = 1 ∧
    s.held.length = 1 ∧ Accounting 4 s := by
  let zeros : Block := [0, 0, 0, 0]
  have h0 : Reachable 2 1 4 ⟨⟨[[zeros], []], 4, 1, 0, 1⟩, []⟩ := .refl
  have h1 : Reachable 2 1 4 ⟨⟨[[], []], 4, 1, 1, 0⟩, [zeros]⟩ :=
    h0.tail (@Step.alloc _ 0 0 zeros _ (by decide) rfl)
  have h2 : Reachable 2 1 4 ⟨⟨[[zeros], []], 4, 2, 2, 1⟩, [zeros, zeros]⟩ :=
    h1.tail (@Step.alloc _ 5 1 zeros _ (by decide) rfl)
  have h3 : Reachable 2 1 4 ⟨⟨[[zeros], [zeros]], 4, 2, 1, 2⟩, [zeros]⟩ :=
    h2.tail (@Step.free _ 1 0 zeros [7, 7, 7, 7] (by decide) rfl rfl)
  have h4 : Reachable 2 1 4 ⟨⟨[[], [zeros]], 4, 1, 1, 1⟩, [zeros]⟩ :=
    h3.tail (@Step.setCapacity _ 5 1 _ rfl)
  exact ⟨_, h4, rfl, rfl, (reachable_accounting (by decide) h4).1⟩

end QuicFuscate.Optimize.MemoryPool
