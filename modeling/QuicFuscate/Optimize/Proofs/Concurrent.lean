import QuicFuscate.Optimize.Concurrent
import QuicFuscate.Optimize.Proofs.MemoryPool

/-!
# The counters under concurrent callers

A queue and the counter that belongs to it change in two steps, and `free` compares two loads before
it pushes.  Three sums over the callers say how far the counters lag behind: blocks popped and still
counted, blocks pushed and not counted yet, and frees that have passed their check.  `Balanced`
relates these sums to the counters, and every step that keeps out of the windows between two
accesses keeps it.
-/

namespace QuicFuscate.Optimize

open Framework

private theorem fetchAdd_of_lt {counter : ℕ} (h : counter + 1 < 2 ^ 64) : fetchAdd counter = counter + 1 :=
  Nat.mod_eq_of_lt h

private theorem fetchSub_of_pos {counter : ℕ} (hpos : 0 < counter) (hlt : counter < 2 ^ 64) :
    fetchSub counter = counter - 1 := by
  rw [fetchSub, show counter + (2 ^ 64 - 1) = counter - 1 + 2 ^ 64 by omega, Nat.add_mod_right,
    Nat.mod_eq_of_lt (by omega)]

/-! ## A call by itself

Without another caller between its accesses a call does what it does in the sequential model, as
long as the counters stay within their range.
-/

namespace SharedPool

variable {s : SharedPool} {i : ℕ} {p p' : MemoryPool} {held : List Block}

private theorem solo_free {node i : ℕ} {b : Block} (hi : held[i]? = some b) (havailable : p.available + 1 < 2 ^ 64)
    (hpos : 0 < p.inUse) (hinUse : p.inUse < 2 ^ 64) :
    Threads.Solo Caller.act (p, ⟨.idle, held⟩) (p.free node b, ⟨.idle, held.eraseIdx i⟩) := by
  have hstart : Caller.act p ⟨.idle, held⟩ (.free node i) =
      some (p, ⟨.checkAvailable node (b.map fun _ => 0), held.eraseIdx i⟩) := by
    simp [Caller.act, hi]
  refine .head ⟨_, hstart⟩ (.head ⟨.proceed, rfl⟩ ?_)
  unfold MemoryPool.free
  split
  · rename_i hlt
    refine .head ⟨.proceed, if_pos hlt⟩ (.head ⟨.proceed, rfl⟩ (.head ⟨.proceed, rfl⟩ (.single ⟨.proceed, ?_⟩)))
    dsimp only [Caller.act, Caller.proceed, MemoryPool.push]
    rw [fetchAdd_of_lt havailable, fetchSub_of_pos hpos hinUse]
  · rename_i hlt
    refine .head ⟨.proceed, if_neg hlt⟩ (.single ⟨.proceed, ?_⟩)
    dsimp only [Caller.act, Caller.proceed]
    rw [fetchSub_of_pos hpos hinUse]

private theorem solo_growPass {newCapacity : ℕ} (hnew : newCapacity < 2 ^ 64) {count n : ℕ}
    (hcount : n + count = p.pools.length) (hle : p.available ≤ p.capacity) :
    Threads.Solo Caller.act (p, ⟨.growNode newCapacity n, held⟩)
      (MemoryPool.growPass newCapacity count n p, ⟨.growWhile newCapacity, held⟩) := by
  induction count generalizing n p with
  | zero =>
      have hend : ¬ (n < p.pools.length ∧ ¬ p.capacity ≥ newCapacity) := by omega
      exact .single ⟨.proceed, if_neg hend⟩
  | succ count ih =>
      rw [MemoryPool.growPass]
      split
      · rename_i hfull
        have hend : ¬ (n < p.pools.length ∧ ¬ p.capacity ≥ newCapacity) := fun h => h.2 hfull
        exact .single ⟨.proceed, if_neg hend⟩
      · rename_i hfull
        have hmore : n < p.pools.length ∧ ¬ p.capacity ≥ newCapacity := ⟨by omega, hfull⟩
        have hrest := ih (n := n + 1) (p := p.stocked n) (by
          change n + 1 + count = (p.push n _).pools.length
          rw [MemoryPool.push_nodes]
          omega) (Nat.succ_le_succ hle)
        -- the test, the push, and one access for each of the two counters
        refine .head ⟨.proceed, if_pos hmore⟩ (.head ⟨.proceed, rfl⟩ (.head ⟨.proceed, rfl⟩
          (.head ⟨.proceed, rfl⟩ ?_)))
        dsimp only [MemoryPool.push]
        rw [fetchAdd_of_lt (by omega), fetchAdd_of_lt (by omega)]
        exact hrest

private theorem solo_grow {newCapacity fuel : ℕ} (hnew : newCapacity < 2 ^ 64) {nodes : ℕ}
    (h : MemoryPool.Counted nodes p) (hrun : p.grow fuel newCapacity = some p') :
    Threads.Solo Caller.act (p, ⟨.growWhile newCapacity, held⟩)
      (p', ⟨.addInUse (allocNumaBlock p'.blockSize), held⟩) := by
  unfold MemoryPool.grow at hrun
  induction fuel generalizing p with
  | zero => cases hrun
  | succ fuel ih =>
      rw [whileLoop] at hrun
      split at hrun
      · rename_i hlt
        have hnext := MemoryPool.growPass_invariant (MemoryPool.Counted nodes)
          (fun q n hn hq => hq.stocked (hq.nodes_eq ▸ hn)) newCapacity (Nat.zero_add p.pools.length).le h
        refine .head ⟨.proceed, if_pos (of_decide_eq_true hlt)⟩ ?_
        exact (solo_growPass hnew (by omega) h.available_le).trans (ih hnext hrun)
      · rename_i hlt
        cases hrun
        exact .single ⟨.proceed, if_neg (by simpa using hlt)⟩

private theorem solo_alloc {node fuel nodes : ℕ} {b : Block} (h : MemoryPool.Counted nodes p)
    (hcapacity : p.capacity * 2 < 2 ^ 64) (hinUse : p.inUse + 1 < 2 ^ 64)
    (hrun : p.alloc fuel node = some (b, p')) :
    Threads.Solo Caller.act (p, ⟨.idle, held⟩) (p', ⟨.idle, held ++ [b]⟩) := by
  refine .head ⟨.alloc node, rfl⟩ ?_
  have havailable := h.available_le
  obtain ⟨rest, -, hpop, rfl⟩ | ⟨q, hpop, hgrow, rfl, rfl⟩ := MemoryPool.alloc_cases hrun
  · have hpos := (h.popped hpop).2.1
    have hstep : Caller.act p ⟨.pop node, held⟩ .proceed =
        some ({ p with pools := p.pools.set node rest }, ⟨.subAvailable b, held⟩) := by
      dsimp only [Caller.act, Caller.proceed]
      rw [hpop]
    refine .head ⟨.proceed, hstep⟩ (.head ⟨.proceed, rfl⟩ (.single ⟨.proceed, ?_⟩))
    dsimp only [Caller.act, Caller.proceed]
    rw [fetchSub_of_pos hpos (by omega), fetchAdd_of_lt hinUse]
  · have hstep : Caller.act p ⟨.pop node, held⟩ .proceed = some (p, ⟨.loadCapacity, held⟩) := by
      dsimp only [Caller.act, Caller.proceed]
      rw [hpop]
    have hresized := (MemoryPool.grow_counted h hgrow).2
    refine .head ⟨.proceed, hstep⟩ (.head ⟨.proceed, rfl⟩ ?_)
    rw [Nat.mod_eq_of_lt hcapacity]
    refine (solo_grow hcapacity h hgrow).trans (.single ⟨.proceed, ?_⟩)
    dsimp only [Caller.act, Caller.proceed]
    rw [fetchAdd_of_lt (by rw [hresized.inUse_eq]; exact hinUse)]

/-- An uninterrupted `free` is the `free` of the sequential model. -/
theorem run_free_solo {node j : ℕ} {b : Block} (hi : s.locals[i]? = some ⟨.idle, held⟩) (hj : held[j]? = some b)
    (havailable : s.shared.available + 1 < 2 ^ 64) (hpos : 0 < s.shared.inUse) (hinUse : s.shared.inUse < 2 ^ 64) :
    ∃ events, (∀ e ∈ events, e.1 = i) ∧
      run s events = some ⟨s.shared.free node b, s.locals.set i ⟨.idle, held.eraseIdx j⟩⟩ :=
  (solo_free hj havailable hpos hinUse).run hi

/-- An uninterrupted `alloc` is the `alloc` of the sequential model. -/
theorem run_alloc_solo {node fuel nodes : ℕ} {b : Block} (hi : s.locals[i]? = some ⟨.idle, held⟩)
    (h : MemoryPool.Counted nodes s.shared) (hcapacity : s.shared.capacity * 2 < 2 ^ 64)
    (hinUse : s.shared.inUse + 1 < 2 ^ 64) (hrun : s.shared.alloc fuel node = some (b, p')) :
    ∃ events, (∀ e ∈ events, e.1 = i) ∧
      run s events = some ⟨p', s.locals.set i ⟨.idle, held ++ [b]⟩⟩ :=
  (solo_alloc h hcapacity hinUse hrun).run hi

end SharedPool

/-! ## What callers are in the middle of -/

namespace Caller

/-- A block has been popped and is still counted. -/
def popped (c : Caller) : ℕ :=
  match c.stage with
  | .subAvailable _ => 1
  | _ => 0

/-- A block has been pushed to one of the queues and is not counted yet. -/
def uncounted (nodes : ℕ) (c : Caller) : ℕ :=
  match c.stage with
  | .growAvailable _ node => if node < nodes then 1 else 0
  | .addAvailable node => if node < nodes then 1 else 0
  | _ => 0

/-- A `free` has passed its check and not counted its block yet. -/
def admitted (c : Caller) : ℕ :=
  match c.stage with
  | .push _ _ => 1
  | .addAvailable _ => 1
  | _ => 0

end Caller

namespace SharedPool

def popped (s : SharedPool) : ℕ := s.total Caller.popped

def uncounted (s : SharedPool) : ℕ := s.total (Caller.uncounted s.shared.pools.length)

def admitted (s : SharedPool) : ℕ := s.total Caller.admitted

/-- The counter `available` is at most `capacity`, and no caller is about to take it below zero. -/
structure CountersSane (s : SharedPool) : Prop where
  available_le : s.shared.available ≤ s.shared.capacity
  pos_of_subAvailable : ∀ c ∈ s.locals, ∀ b, c.stage = .subAvailable b → 0 < s.shared.available

/-- The steps that keep out of the windows between two accesses: a block is popped only while more
blocks are queued than wait to be counted, a `free` passes its check and a grown block is counted
only while there is room for it beside the frees that have passed theirs, and `capacity` has not
reached the end of its range. -/
def Orderly (s : SharedPool) (e : ℕ × Action) : Prop :=
  match s.locals[e.1]?.map Caller.stage with
  | some (.pop node) => (s.shared.pop node).isSome → s.uncounted < s.shared.queued
  | some (.checkCapacity _ _ available) =>
      available < s.shared.capacity → s.shared.available + s.admitted < s.shared.capacity
  | some (.growAvailable _ _) => s.shared.available + s.admitted < s.shared.capacity
  | some (.growCapacity _ _) => s.shared.capacity + 1 < 2 ^ 64
  | _ => True

structure Balanced (s : SharedPool) : Prop where
  capacity_lt : s.shared.capacity < 2 ^ 64
  room : s.shared.available + s.admitted ≤ s.shared.capacity
  counted : s.shared.queued + s.popped ≤ s.shared.available + s.uncounted
  queued : s.uncounted ≤ s.shared.queued

variable {s s' : SharedPool} {i : ℕ} {c : Caller}

theorem Balanced.popped_le (h : Balanced s) : s.popped ≤ s.shared.available := by
  have hcounted := h.counted
  have hqueued := h.queued
  omega

theorem Balanced.countersSane (h : Balanced s) : CountersSane s where
  available_le := (Nat.le_add_right _ _).trans h.room
  pos_of_subAvailable := by
    intro c hc b hstage
    obtain ⟨i, hi⟩ := List.mem_iff_getElem?.mp hc
    have hone : c.popped = 1 := by rw [Caller.popped, hstage]
    have hle := Threads.le_total Caller.popped hi
    have hpopped := h.popped_le
    rw [popped] at hpopped
    omega

theorem Balanced.update (h : Balanced s) (hi : s.locals[i]? = some c) {p : MemoryPool} {c' : Caller}
    (hnodes : p.pools.length = s.shared.pools.length) (hcapacity : p.capacity < 2 ^ 64)
    (hroom : p.available + c'.admitted + s.admitted ≤ p.capacity + c.admitted)
    (hcounted : p.queued + c'.popped + s.shared.available + c.uncounted p.pools.length ≤
      p.available + c'.uncounted p.pools.length + s.shared.queued + c.popped)
    (hqueued : c'.uncounted p.pools.length + s.uncounted ≤ p.queued + c.uncounted p.pools.length) :
    Balanced ⟨p, s.locals.set i c'⟩ := by
  have hadmitted := Threads.total_set Caller.admitted hi p c'
  have hpopped := Threads.total_set Caller.popped hi p c'
  have huncounted := Threads.total_set (Caller.uncounted s.shared.pools.length) hi p c'
  have hbalance := h.counted
  rw [hnodes] at hcounted hqueued
  unfold SharedPool.admitted at hroom
  unfold SharedPool.uncounted at hqueued hbalance
  unfold SharedPool.popped at hbalance
  constructor
  · exact hcapacity
  · dsimp only [SharedPool.admitted]
    omega
  · dsimp only [SharedPool.popped, SharedPool.uncounted]
    rw [hnodes]
    omega
  · dsimp only [SharedPool.uncounted]
    rw [hnodes]
    omega

theorem Balanced.quiet (h : Balanced s) (hi : s.locals[i]? = some c) {c' : Caller} {p : MemoryPool}
    (hpools : p.pools = s.shared.pools) (hcapacity : p.capacity = s.shared.capacity)
    (havailable : p.available = s.shared.available) (hpopped : c'.popped = c.popped)
    (huncounted : ∀ nodes, c'.uncounted nodes = c.uncounted nodes) (hadmitted : c'.admitted = c.admitted) :
    Balanced ⟨p, s.locals.set i c'⟩ := by
  have hroom := h.room
  have hqueued := h.queued
  have hsame : p.queued = s.shared.queued := congrArg (fun qs => (qs.map List.length).sum) hpools
  apply h.update hi
  · rw [hpools]
  · rw [hcapacity]
    exact h.capacity_lt
  · omega
  · rw [huncounted]
    omega
  · rw [huncounted]
    omega

theorem Balanced.pushed (h : Balanced s) (hi : s.locals[i]? = some c) {c' : Caller} {n : ℕ} {b : Block}
    (hpopped : c.popped = 0) (hpopped' : c'.popped = 0) (hbefore : ∀ nodes, c.uncounted nodes = 0)
    (hafter : ∀ nodes, c'.uncounted nodes = if n < nodes then 1 else 0) (hadmitted : c'.admitted = c.admitted) :
    Balanced ⟨s.shared.push n b, s.locals.set i c'⟩ := by
  have hroom := h.room
  have hqueued := h.queued
  have hq := MemoryPool.push_queued_eq s.shared n b
  apply h.update hi
  · exact MemoryPool.push_nodes _ _ _
  · exact h.capacity_lt
  · change s.shared.available + c'.admitted + s.admitted ≤ s.shared.capacity + c.admitted
    omega
  · rw [MemoryPool.push_nodes, hq, hbefore, hafter, hpopped, hpopped']
    change _ ≤ s.shared.available + _ + _ + _
    omega
  · rw [MemoryPool.push_nodes, hq, hbefore, hafter]
    omega

theorem Balanced.counting (h : Balanced s) (hi : s.locals[i]? = some c) {c' : Caller} {n : ℕ}
    (hpopped : c.popped = 0) (hpopped' : c'.popped = 0)
    (hbefore : ∀ nodes, c.uncounted nodes = if n < nodes then 1 else 0) (hafter : ∀ nodes, c'.uncounted nodes = 0)
    (hroom : s.shared.available + 1 + c'.admitted + s.admitted ≤ s.shared.capacity + c.admitted)
    (hlt : s.shared.available + 1 < 2 ^ 64) :
    Balanced ⟨{ s.shared with available := fetchAdd s.shared.available }, s.locals.set i c'⟩ := by
  have hqueued := h.queued
  rw [fetchAdd_of_lt hlt]
  apply h.update hi
  · rfl
  · exact h.capacity_lt
  · exact hroom
  · rw [hbefore, hafter, hpopped, hpopped']
    change s.shared.queued + 0 + s.shared.available + _ ≤ s.shared.available + 1 + 0 + s.shared.queued + 0
    split <;> omega
  · rw [hbefore, hafter]
    change 0 + s.uncounted ≤ s.shared.queued + _
    omega

theorem Balanced.proceed (h : Balanced s) (hi : s.locals[i]? = some c) (horderly : Orderly s (i, .proceed))
    {p : MemoryPool} {c' : Caller} (hstep : c.proceed s.shared = some (p, c')) :
    Balanced ⟨p, s.locals.set i c'⟩ := by
  have hcapacity := h.capacity_lt
  have hroom := h.room
  have hqueued := h.queued
  -- the caller itself is among those that the sums count
  have hadmitted := Threads.le_total Caller.admitted hi
  have hpopped := (Threads.le_total Caller.popped hi).trans h.popped_le
  simp only [Orderly, hi, Option.map_some] at horderly
  obtain ⟨stage, held⟩ := c
  cases stage with
  | idle => cases hstep
  | pop node =>
      dsimp only [Caller.proceed] at hstep
      split at hstep
      · rename_i b q hpop
        cases hstep
        -- a counted block stays behind this one, so that the later `fetch_sub` finds it
        have hfew := horderly (by rw [hpop]; rfl)
        have hq := MemoryPool.pop_queued hpop
        obtain ⟨rest, -, rfl⟩ := MemoryPool.pop_eq_some hpop
        apply h.update hi
        · exact List.length_set
        · exact hcapacity
        · exact hroom
        · change MemoryPool.queued _ + 1 + s.shared.available ≤ s.shared.available + s.shared.queued
          omega
        · change 0 + s.uncounted ≤ MemoryPool.queued _
          omega
      · cases hstep
        exact h.quiet hi rfl rfl rfl rfl (fun _ => rfl) rfl
  | subAvailable b =>
      cases hstep
      have hpos : 0 < s.shared.available := hpopped
      rw [fetchSub_of_pos hpos (by omega)]
      apply h.update hi
      · rfl
      · exact hcapacity
      · change s.shared.available - 1 + 0 + s.admitted ≤ s.shared.capacity
        omega
      · change s.shared.queued + 0 + s.shared.available ≤ s.shared.available - 1 + 0 + s.shared.queued + 1
        omega
      · change 0 + s.uncounted ≤ s.shared.queued
        omega
  | loadCapacity =>
      cases hstep
      exact h.quiet hi rfl rfl rfl rfl (fun _ => rfl) rfl
  | growWhile newCapacity =>
      dsimp only [Caller.proceed] at hstep
      split at hstep <;> cases hstep <;> exact h.quiet hi rfl rfl rfl rfl (fun _ => rfl) rfl
  | growNode newCapacity n =>
      dsimp only [Caller.proceed] at hstep
      split at hstep <;> cases hstep <;> exact h.quiet hi rfl rfl rfl rfl (fun _ => rfl) rfl
  | growPush newCapacity n =>
      cases hstep
      exact h.pushed hi rfl rfl (fun _ => rfl) (fun _ => rfl) rfl
  | growAvailable newCapacity n =>
      cases hstep
      have hfree : s.shared.available + s.admitted < s.shared.capacity := horderly
      apply h.counting hi rfl rfl (fun _ => rfl) (fun _ => rfl)
      · change s.shared.available + 1 + 0 + s.admitted ≤ s.shared.capacity
        omega
      · omega
  | growCapacity newCapacity n =>
      cases hstep
      have hlt : s.shared.capacity + 1 < 2 ^ 64 := horderly
      rw [fetchAdd_of_lt hlt]
      apply h.update hi
      · rfl
      · exact hlt
      · change s.shared.available + 0 + s.admitted ≤ s.shared.capacity + 1
        omega
      · change s.shared.queued + 0 + s.shared.available ≤ s.shared.available + 0 + s.shared.queued
        omega
      · change 0 + s.uncounted ≤ s.shared.queued
        omega
  | addInUse b =>
      cases hstep
      exact h.quiet hi rfl rfl rfl rfl (fun _ => rfl) rfl
  | checkAvailable node block =>
      cases hstep
      exact h.quiet hi rfl rfl rfl rfl (fun _ => rfl) rfl
  | checkCapacity node block available =>
      dsimp only [Caller.proceed] at hstep
      split at hstep
      · rename_i hlt
        cases hstep
        have hfree := horderly hlt
        apply h.update hi
        · rfl
        · exact hcapacity
        · change s.shared.available + 1 + s.admitted ≤ s.shared.capacity
          omega
        · change s.shared.queued + 0 + s.shared.available ≤ s.shared.available + 0 + s.shared.queued
          omega
        · change 0 + s.uncounted ≤ s.shared.queued
          omega
      · cases hstep
        exact h.quiet hi rfl rfl rfl rfl (fun _ => rfl) rfl
  | push node block =>
      cases hstep
      exact h.pushed hi rfl rfl (fun _ => rfl) (fun _ => rfl) rfl
  | addAvailable node =>
      cases hstep
      -- the place was reserved when the check was passed
      have hone : 1 ≤ s.admitted := hadmitted
      apply h.counting hi rfl rfl (fun _ => rfl) (fun _ => rfl)
      · change s.shared.available + 1 + 0 + s.admitted ≤ s.shared.capacity + 1
        omega
      · omega
  | subInUse =>
      cases hstep
      exact h.quiet hi rfl rfl rfl rfl (fun _ => rfl) rfl

private theorem act_cases {p p' : MemoryPool} {a : Action} {c' : Caller} (h : c.act p a = some (p', c')) :
    (c.stage = .idle ∧ p' = p ∧ ((∃ node, c'.stage = .pop node) ∨ ∃ node b, c'.stage = .checkAvailable node b)) ∨
      c.proceed p = some (p', c') := by
  obtain ⟨stage, held⟩ := c
  cases a with
  | alloc node =>
      cases stage with
      | idle =>
          cases h
          exact .inl ⟨rfl, rfl, .inl ⟨node, rfl⟩⟩
      | _ => cases h
  | free node j =>
      cases stage with
      | idle =>
          dsimp only [Caller.act] at h
          rw [Option.bind_eq_bind, Option.bind_eq_some_iff] at h
          obtain ⟨block, -, h⟩ := h
          cases h
          exact .inl ⟨rfl, rfl, .inr ⟨node, _, rfl⟩⟩
      | _ => cases h
  | proceed => exact .inr (by cases stage <;> exact h)

theorem Balanced.step (h : Balanced s) {e : ℕ × Action} (horderly : Orderly s e)
    (hstep : Threads.step Caller.act s e = some s') : Balanced s' := by
  obtain ⟨c, p, c', hi, hact, rfl⟩ := Threads.step_eq_some.mp hstep
  rcases act_cases hact with ⟨hidle, rfl, ⟨node, hstage⟩ | ⟨node, b, hstage⟩⟩ | hproceed
  · apply h.quiet hi rfl rfl rfl <;> simp [Caller.popped, Caller.uncounted, Caller.admitted, hidle, hstage]
  · apply h.quiet hi rfl rfl rfl <;> simp [Caller.popped, Caller.uncounted, Caller.admitted, hidle, hstage]
  · exact h.proceed hi horderly hproceed

private theorem balanced_new (nodes : ℕ) {capacity : ℕ} (hcapacity : capacity < 2 ^ 64) (blockSize callers : ℕ) :
    Balanced (new nodes capacity blockSize callers) := by
  have hidle : ∀ w : Caller → ℕ, w ⟨.idle, []⟩ = 0 → (new nodes capacity blockSize callers).total w = 0 := by
    intro w hw
    simp [Threads.total, new, hw]
  have hadmitted : (new nodes capacity blockSize callers).admitted = 0 := hidle _ rfl
  have hpopped : (new nodes capacity blockSize callers).popped = 0 := hidle _ rfl
  have huncounted : (new nodes capacity blockSize callers).uncounted = 0 := hidle _ rfl
  constructor
  · exact hcapacity
  · rw [hadmitted]
    exact le_rfl
  · rw [hpopped, huncounted]
    exact MemoryPool.new_queued_le nodes capacity blockSize
  · rw [huncounted]
    exact Nat.zero_le _

/-- In every interleaving of any number of callers whose steps are all orderly, `available` stays at
or below `capacity` and no `fetch_sub` takes it below zero. -/
theorem run_countersSane (nodes : ℕ) {capacity : ℕ} (hcapacity : capacity < 2 ^ 64) (blockSize callers : ℕ)
    {events : List (ℕ × Action)} (hrun : run (new nodes capacity blockSize callers) events = some s)
    (horderly : Threads.Guarded Caller.act Orderly (new nodes capacity blockSize callers) events) :
    CountersSane s :=
  (Threads.run_invariant Balanced hrun horderly (balanced_new nodes hcapacity blockSize callers)
    fun _ _ _ h hguard hstep => h.step hguard hstep).countersSane

/-- Two callers take the two blocks of a pool, both popping before either counts. -/
theorem run_countersSane_two_callers : ∃ s,
    run (new 1 2 1 2) [(0, .alloc 0), (1, .alloc 0), (0, .proceed), (1, .proceed), (0, .proceed)] = some s ∧
      s.shared.available = 1 ∧ CountersSane s := by
  have hrun : run (new 1 2 1 2) [(0, .alloc 0), (1, .alloc 0), (0, .proceed), (1, .proceed), (0, .proceed)] =
    some _ := rfl
  refine ⟨_, hrun, rfl, run_countersSane 1 (by decide) 1 2 hrun ?_⟩
  refine .cons trivial rfl (.cons trivial rfl (.cons ?_ rfl (.cons ?_ rfl (.cons trivial rfl trivial))))
  · intro _
    decide
  · intro _
    decide

/-- A block is freed, and popped again before `free` has counted it: the counter wraps. -/
theorem run_available_wraps : ∃ s,
    run (new 1 1 1 2) [(0, .alloc 0), (0, .proceed), (0, .proceed), (0, .proceed),
      (0, .free 0 0), (0, .proceed), (0, .proceed), (0, .proceed),
      (1, .alloc 0), (1, .proceed), (1, .proceed)] = some s ∧
      s.shared.available = 2 ^ 64 - 1 ∧ s.shared.capacity = 1 ∧ ¬ CountersSane s := by
  refine ⟨_, rfl, rfl, rfl, fun h => ?_⟩
  have hle := h.available_le
  revert hle
  decide

end SharedPool

end QuicFuscate.Optimize
