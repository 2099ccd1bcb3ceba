import Mathlib.Algebra.Order.BigOperators.Group.List
import Mathlib.Algebra.Order.Group.Nat
import Mathlib.Algebra.Ring.Nat
import Mathlib.Logic.Relation

/-!
# Interleaved threads

Any number of threads with private states take atomic steps on one shared state, in any order.  A
run is a list of such steps, each naming its thread.  What all threads together are in the middle
of is a sum of weights over the private states, and a step changes one summand.
-/

namespace QuicFuscate.Framework

structure Threads (σ τ : Type) where
  shared : σ
  locals : List τ

namespace Threads

variable {σ τ ε : Type} {f : σ → τ → ε → Option (σ × τ)} {s s' : Threads σ τ}

def step (f : σ → τ → ε → Option (σ × τ)) (s : Threads σ τ) (e : ℕ × ε) : Option (Threads σ τ) := do
  let t ← s.locals[e.1]?
  let (shared, t') ← f s.shared t e.2
  return ⟨shared, s.locals.set e.1 t'⟩

def run (f : σ → τ → ε → Option (σ × τ)) (s : Threads σ τ) (events : List (ℕ × ε)) :
    Option (Threads σ τ) :=
  events.foldlM (step f) s

theorem step_eq_some {e : ℕ × ε} :
    step f s e = some s' ↔ ∃ t shared t', s.locals[e.1]? = some t ∧ f s.shared t e.2 = some (shared, t') ∧
      s' = ⟨shared, s.locals.set e.1 t'⟩ := by
  constructor
  · intro h
    rw [step, Option.bind_eq_bind, Option.bind_eq_some_iff] at h
    obtain ⟨t, ht, h⟩ := h
    rw [Option.bind_eq_bind, Option.bind_eq_some_iff] at h
    obtain ⟨⟨shared, t'⟩, hf, h⟩ := h
    exact ⟨t, shared, t', ht, hf, (Option.some.inj h).symm⟩
  · rintro ⟨t, shared, t', ht, hf, rfl⟩
    rw [step, ht]
    dsimp only [Option.bind_eq_bind, Option.bind_some]
    rw [hf]
    rfl

/-! ## Weights -/

def total (w : τ → ℕ) (s : Threads σ τ) : ℕ := (s.locals.map w).sum

theorem sum_map_set (w : τ → ℕ) {ts : List τ} {i : ℕ} {t : τ} (ht : ts[i]? = some t) (t' : τ) :
    ((ts.set i t').map w).sum + w t = (ts.map w).sum + w t' := by
  induction ts generalizing i with
  | nil => simp at ht
  | cons u ts ih =>
      cases i with
      | zero =>
          rw [List.getElem?_cons_zero, Option.some.injEq] at ht
          rw [List.set_cons_zero, List.map_cons, List.map_cons, List.sum_cons, List.sum_cons, ht]
          omega
      | succ i =>
          have h := ih (by simpa using ht)
          rw [List.set_cons_succ, List.map_cons, List.map_cons, List.sum_cons, List.sum_cons]
          omega

theorem total_set (w : τ → ℕ) {i : ℕ} {t : τ} (ht : s.locals[i]? = some t) (shared : σ) (t' : τ) :
    total w ⟨shared, s.locals.set i t'⟩ + w t = total w s + w t' :=
  sum_map_set w ht t'

theorem le_total (w : τ → ℕ) {i : ℕ} {t : τ} (ht : s.locals[i]? = some t) : w t ≤ total w s :=
  List.single_le_sum (by simp) _ (List.mem_map_of_mem (List.mem_of_getElem? ht))

/-! ## Guarded runs -/

/-- Every step of a run meets a condition on the state before it. -/
def Guarded (f : σ → τ → ε → Option (σ × τ)) (guard : Threads σ τ → ℕ × ε → Prop) :
    Threads σ τ → List (ℕ × ε) → Prop
  | _, [] => True
  | s, e :: events => guard s e ∧ ∀ s', step f s e = some s' → Guarded f guard s' events

theorem Guarded.cons {guard : Threads σ τ → ℕ × ε → Prop} {e : ℕ × ε} {events : List (ℕ × ε)}
    (hguard : guard s e) (hstep : step f s e = some s') (h : Guarded f guard s' events) :
    Guarded f guard s (e :: events) := by
  constructor
  · exact hguard
  · intro t ht
    rw [hstep] at ht
    exact (Option.some.inj ht) ▸ h

theorem run_invariant {guard : Threads σ τ → ℕ × ε → Prop} {events : List (ℕ × ε)} (P : Threads σ τ → Prop)
    (hrun : run f s events = some s') (hguard : Guarded f guard s events) (h : P s)
    (hstep : ∀ t e t', P t → guard t e → step f t e = some t' → P t') : P s' := by
  induction events generalizing s with
  | nil => exact (Option.some.inj hrun) ▸ h
  | cons e events ih =>
      rw [run, List.foldlM_cons, Option.bind_eq_bind, Option.bind_eq_some_iff] at hrun
      obtain ⟨t, ht, hrun⟩ := hrun
      exact ih hrun (hguard.2 t ht) (hstep s e t h hguard.1 ht)

/-! ## A thread by itself -/

/-- Steps of one thread that no other thread interrupts. -/
def Solo (f : σ → τ → ε → Option (σ × τ)) : σ × τ → σ × τ → Prop :=
  Relation.ReflTransGen fun x y => ∃ a, f x.1 x.2 a = some y

theorem Solo.run {i : ℕ} {t : τ} {y : σ × τ} (h : Solo f (s.shared, t) y) (ht : s.locals[i]? = some t) :
    ∃ events, (∀ e ∈ events, e.1 = i) ∧ Threads.run f s events = some ⟨y.1, s.locals.set i y.2⟩ := by
  obtain ⟨hi, hget⟩ := List.getElem?_eq_some_iff.mp ht
  induction h with
  | refl =>
      refine ⟨[], by simp, ?_⟩
      dsimp only
      rw [← hget, List.set_getElem_self]
      rfl
  | @tail x y _ hstep ih =>
      obtain ⟨a, ha⟩ := hstep
      obtain ⟨events, hown, hrun⟩ := ih
      refine ⟨events ++ [(i, a)], ?_, ?_⟩
      · intro e he
        rcases List.mem_append.mp he with he | he
        · exact hown e he
        · rw [List.mem_singleton.mp he]
      · have hstep : step f ⟨x.1, s.locals.set i x.2⟩ (i, a) = some ⟨y.1, s.locals.set i y.2⟩ :=
          step_eq_some.mpr ⟨x.2, y.1, y.2, by simp [hi], ha, by simp⟩
        rw [Threads.run, List.foldlM_append, ← Threads.run, hrun, Option.bind_eq_bind, Option.bind_some,
          List.foldlM_cons, hstep]
        rfl

end Threads

end QuicFuscate.Framework
