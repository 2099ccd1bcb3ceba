import QuicFuscate.Framework.Checked

/-!
# Checked programs over a state

A program that reads and writes a shared state may return, abort or run for ever; the state after
an abort is not observed.  Checked operations that leave the state alone are lifted.
-/

namespace QuicFuscate.Framework

variable {σ α β : Type}

/-- A program; the outcome `none` stands for one that does not come back. -/
structure Stateful (σ α : Type) where
  run : σ → Option (Checked (α × σ))

namespace Stateful

instance : Monad (Stateful σ) where
  pure a := ⟨fun s => some (.ok (a, s))⟩
  bind x f := ⟨fun s => match x.run s with
    | none => none
    | some (.error e) => some (.error e)
    | some (.ok (a, t)) => (f a).run t⟩

instance : MonadLift Checked (Stateful σ) where
  monadLift x := ⟨fun s => some (x.map (·, s))⟩

variable {s t : σ} {a : α} {x : Stateful σ α} {f : α → Stateful σ β}

theorem run_bind (h : x.run s = some (.ok (a, t))) : (x >>= f).run s = (f a).run t := by
  simp only [bind, h]

theorem run_bind_lift {y : Checked α} (h : y = .ok a) (s : σ) :
    ((liftM y : Stateful σ α) >>= f).run s = (f a).run s := by
  subst h
  rfl

theorem run_bind_lift_error {y : Checked α} {e : Panic} (h : y = .error e) (s : σ) :
    ((liftM y : Stateful σ α) >>= f).run s = some (.error e) := by
  subst h
  rfl

theorem run_bind_none (h : x.run s = none) : (x >>= f).run s = none := by
  simp only [bind, h]

def runEach (f : α → Stateful σ β) : List α → Stateful σ (List β)
  | [] => pure []
  | a :: as => do
      let b ← f a
      let bs ← runEach f as
      return b :: bs

def result (x : Stateful σ α) (s : σ) : Option (Checked α) := (x.run s).map (Except.map Prod.fst)

/-! ## Following an abstract machine -/

variable {ν : Type} {answer : ν → α → Option β} {next : ν → α → ν}

/-- The answers of an abstract machine to a list of calls, unless it stops at one of them. -/
def answersOf (answer : ν → α → Option β) (next : ν → α → ν) : ν → List α → Option (List β)
  | _, [] => some []
  | v, a :: as => do
      let b ← answer v a
      let bs ← answersOf answer next (next v a) as
      some (b :: bs)

/-- A program does not come back, or returns what is expected in a state with the property. -/
def Follows (x : Stateful σ α) (s : σ) (expected : Option α) (P : σ → Prop) : Prop :=
  match expected with
  | none => x.run s = none
  | some a => ∃ t, x.run s = some (.ok (a, t)) ∧ P t

theorem Follows.result_eq {expected : Option α} {P : σ → Prop} (h : Follows x s expected P) :
    x.result s = expected.map .ok := by
  cases expected with
  | none =>
      rw [result, show x.run s = none from h]
      rfl
  | some a =>
      obtain ⟨t, hrun, -⟩ := h
      rw [result, hrun]
      rfl

theorem runEach_follows {f : α → Stateful σ β} (R : σ → ν → Prop)
    (hcall : ∀ s v a, R s v → Follows (f a) s (answer v a) fun t => R t (next v a)) {v : ν} (h : R s v) (as : List α) :
    Follows (runEach f as) s (answersOf answer next v as) fun t => R t (as.foldl next v) := by
  induction as generalizing s v with
  | nil => exact ⟨s, rfl, h⟩
  | cons a as ih =>
      have hfirst := hcall s v a h
      rw [answersOf, runEach]
      cases hanswer : answer v a with
      | none =>
          rw [hanswer] at hfirst
          exact run_bind_none hfirst
      | some b =>
          rw [hanswer] at hfirst
          obtain ⟨t, hrun, ht⟩ := hfirst
          have hrest := ih ht
          rw [Option.bind_eq_bind, Option.bind_some]
          cases hanswers : answersOf answer next (next v a) as with
          | none =>
              rw [hanswers] at hrest
              exact (run_bind hrun).trans (run_bind_none hrest)
          | some bs =>
              rw [hanswers] at hrest
              obtain ⟨u, hruns, hu⟩ := hrest
              exact ⟨u, (run_bind hrun).trans (run_bind hruns), hu⟩

end Stateful

end QuicFuscate.Framework
