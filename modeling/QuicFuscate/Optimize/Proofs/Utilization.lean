import QuicFuscate.Framework.GuardedRun
import QuicFuscate.Optimize.Proofs.AnyNode

/-!
# Blocks in use beyond the capacity

An allocation that finds its queue empty doubles the capacity, leaves all the new blocks in the
queues and hands out a further one.  When the queues are then emptied, more blocks are in use than
the capacity counts, and the reported utilization passes 100.
-/

namespace QuicFuscate.Optimize.MemoryPool

open Framework

variable {p p' : MemoryPool} {s t : Run} {c : Call}

/-- The blocks in use are counted in the capacity. -/
def WithinCapacity (p : MemoryPool) : Prop := p.inUse ≤ p.capacity ∧ p.utilization ≤ 100

private theorem withinCapacity_iff : p.WithinCapacity ↔ p.inUse ≤ p.capacity := by
  refine ⟨And.left, fun hle => ⟨hle, ?_⟩⟩
  unfold utilization
  split
  · exact Nat.zero_le _
  · exact Nat.div_le_of_le_mul (Nat.mul_le_mul_right 100 hle)

/-- `set_capacity` is only called with a larger value. -/
def Grows (s : Run) : Call → Prop
  | .setCapacity newCapacity => s.pool.capacity < newCapacity
  | _ => True

/-- With as many blocks in use as the capacity counts, an allocation finds its queue empty. -/
def HasRoom (s : Run) : Call → Prop
  | .alloc node => s.pool.inUse = s.pool.capacity → s.pool.pop node = none
  | _ => True

/-! ## One call -/

theorem Calls.capacity_pos (hcall : Calls s c t) (hgrows : Grows s c) (hpos : 0 < s.pool.capacity) :
    0 < t.pool.capacity := by
  obtain ⟨out, hexec⟩ := hcall
  cases hexec with
  | alloc hrun =>
      obtain ⟨-, ⟨-, hsame⟩ | ⟨-, hdouble⟩⟩ := alloc_counters hrun
      · exact hsame ▸ hpos
      · dsimp only
        omega
  | write hheld hcontents => exact hpos
  | @free node i b hheld => exact (free_counters s.pool node b).2 ▸ hpos
  | setCapacity hrun =>
      rw [setCapacity_larger hgrows] at hrun
      exact hpos.trans_le (grow_capacity hrun).1

theorem Calls.inUse_le (hcall : Calls s c t) (hgrows : Grows s c) (hroom : HasRoom s c) (hpos : 0 < s.pool.capacity)
    (hle : s.pool.inUse ≤ s.pool.capacity) : t.pool.inUse ≤ t.pool.capacity := by
  obtain ⟨out, hexec⟩ := hcall
  cases hexec with
  | alloc hrun =>
      obtain ⟨hin, ⟨hpop, hsame⟩ | ⟨-, hdouble⟩⟩ := alloc_counters hrun
      · have hne : s.pool.inUse ≠ s.pool.capacity := fun heq => hpop (hroom heq)
        dsimp only
        omega
      · dsimp only
        omega
  | write hheld hcontents => exact hle
  | @free node i b hheld =>
      obtain ⟨hin, hsame⟩ := free_counters s.pool node b
      dsimp only
      omega
  | setCapacity hrun =>
      rw [setCapacity_larger hgrows] at hrun
      obtain ⟨hmore, -, hin⟩ := grow_capacity hrun
      dsimp only
      omega

/-! ## Runs -/

/-- The utilization stays within 100 percent exactly as long as no allocation takes a queued block
when the capacity is used up. -/
theorem utilization_le_iff (nodes blockSize : ℕ) {capacity : ℕ} (hcapacity : 1 ≤ capacity) {cs : List Call}
    (hgrows : Guarded Calls Grows ⟨new nodes capacity blockSize, []⟩ cs) :
    Always Calls (fun s => s.pool.WithinCapacity) ⟨new nodes capacity blockSize, []⟩ cs ↔
      Guarded Calls HasRoom ⟨new nodes capacity blockSize, []⟩ cs := by
  have hstart : 0 < (new nodes capacity blockSize).capacity := hcapacity
  refine always_iff_guarded (fun s : Run => 0 < s.pool.capacity) ?_ ?_ ?_ hstart
    (withinCapacity_iff.mpr (Nat.zero_le _)) hgrows
  · intro s c t hpos hgrows hcall
    exact hcall.capacity_pos hgrows hpos
  · intro s c t hpos hwithin hgrows hroom hcall
    exact withinCapacity_iff.mpr (hcall.inUse_le hgrows hroom hpos (withinCapacity_iff.mp hwithin))
  · intro s c _ hwithin _ hnot
    cases c with
    | alloc node =>
        simp only [HasRoom, Classical.not_imp] at hnot
        obtain ⟨hfull, hpop⟩ := hnot
        obtain ⟨⟨b, q⟩, hq⟩ := Option.ne_none_iff_exists'.mp hpop
        have hrun : s.pool.alloc 0 node = some (b, { q with available := q.available - 1, inUse := q.inUse + 1 }) := by
          rw [MemoryPool.alloc, hq]
        refine ⟨_, ⟨_, .alloc hrun⟩, ?_⟩
        obtain ⟨hin, ⟨-, hsame⟩ | ⟨hempty, -⟩⟩ := alloc_counters hrun
        · rw [withinCapacity_iff]
          dsimp only at hin hsame ⊢
          omega
        · exact absurd hempty hpop
    | free node i => exact absurd trivial hnot
    | write i contents => exact absurd trivial hnot
    | setCapacity newCapacity => exact absurd trivial hnot

private theorem Calls.alloc_eq {fuel node : ℕ} {b : Block} (hcall : Calls s (.alloc node) t)
    (hrun : s.pool.alloc fuel node = some (b, p)) : t = ⟨p, b :: s.held⟩ := by
  obtain ⟨out, hexec⟩ := hcall
  cases hexec with
  | alloc hrun' =>
      obtain ⟨rfl, rfl⟩ := Prod.mk.inj (alloc_unique hrun hrun')
      rfl

private theorem Calls.free_eq {node i : ℕ} {b : Block} (hcall : Calls s (.free node i) t)
    (hheld : s.held[i]? = some b) : t = ⟨s.pool.free node b, s.held.eraseIdx i⟩ := by
  obtain ⟨out, hexec⟩ := hcall
  cases hexec with
  | free hheld' =>
      rw [hheld, Option.some.injEq] at hheld'
      rw [hheld']

/-- The second allocation doubles the capacity, and a block is returned before the third one. -/
theorem utilization_le_iff_returned_block :
    let cs : List Call := [.alloc 0, .alloc 0, .free 0 0, .alloc 0]
    Guarded Calls Grows ⟨new 1 1 4, []⟩ cs ∧ Always Calls (fun s => s.pool.WithinCapacity) ⟨new 1 1 4, []⟩ cs := by
  intro cs
  let zeros : Block := [0, 0, 0, 0]
  have hgrows : Guarded Calls Grows ⟨new 1 1 4, []⟩ cs :=
    ⟨trivial, fun _ _ => ⟨trivial, fun _ _ => ⟨trivial, fun _ _ => ⟨trivial, fun _ _ => trivial⟩⟩⟩⟩
  refine ⟨hgrows, (utilization_le_iff 1 4 le_rfl hgrows).mpr ⟨fun hfull => absurd hfull Nat.zero_ne_one, ?_⟩⟩
  intro t₁ h₁
  rw [h₁.alloc_eq (show (new 1 1 4).alloc 0 0 = some (zeros, ⟨[[]], 4, 1, 1, 0⟩) from rfl)]
  refine ⟨fun _ => rfl, fun t₂ h₂ => ?_⟩
  rw [h₂.alloc_eq (show (⟨[[]], 4, 1, 1, 0⟩ : MemoryPool).alloc 2 0 = some (zeros, ⟨[[zeros]], 4, 2, 2, 1⟩) from rfl)]
  refine ⟨trivial, fun t₃ h₃ => ?_⟩
  rw [h₃.free_eq (show [zeros, zeros][0]? = some zeros from rfl)]
  exact ⟨fun hfull => absurd hfull (by decide), fun _ _ => trivial⟩

/-- Three blocks are taken from a pool that starts with one. -/
theorem utilization_exceeds : ∃ s, Execs ⟨new 1 1 4, []⟩ [.alloc 0, .alloc 0, .alloc 0]
    [[0, 0, 0, 0], [0, 0, 0, 0], [0, 0, 0, 0]] s ∧
    s.pool.inUse = 3 ∧ s.pool.capacity = 2 ∧ s.pool.utilization = 150 := by
  let zeros : Block := [0, 0, 0, 0]
  have hrun : Execs ⟨new 1 1 4, []⟩ [.alloc 0, .alloc 0, .alloc 0] ([zeros] ++ ([zeros] ++ ([zeros] ++ [])))
      ⟨⟨[[]], 4, 2, 3, 0⟩, [zeros, zeros, zeros]⟩ :=
    .call (@Exec.alloc _ 0 0 zeros ⟨[[]], 4, 1, 1, 0⟩ rfl)
      (.call (@Exec.alloc _ 2 0 zeros ⟨[[zeros]], 4, 2, 2, 1⟩ rfl)
        (.call (@Exec.alloc _ 0 0 zeros ⟨[[]], 4, 2, 3, 0⟩ rfl) .done))
  exact ⟨_, hrun, rfl, rfl, by decide⟩

end QuicFuscate.Optimize.MemoryPool
