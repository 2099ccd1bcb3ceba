import Mathlib.Logic.Function.Basic

/-!
# Cells that are written once

A family of cells, each of which is initialised by the first access to it.  While its initialiser runs a cell is
neither empty nor full: whoever needs it waits, and so an initialiser that comes back to its own cell waits for
itself.  A computation that does not return is `none`.
-/

namespace QuicFuscate.Framework

variable {κ β : Type}

inductive OnceCell (β : Type)
  | unset
  | running
  | done (b : β)
  deriving DecidableEq, Repr

abbrev OnceCells (κ β : Type) := κ → OnceCell β

namespace OnceCells

def get (cells : OnceCells κ β) (k : κ) : Option β :=
  match cells k with
  | .done b => some b
  | _ => none

variable [DecidableEq κ]

def set (cells : OnceCells κ β) (k : κ) (b : β) : Option (OnceCells κ β) :=
  match cells k with
  | .unset => some (Function.update cells k (.done b))
  | .done _ => some cells
  | .running => none

def setEach (p : κ → Bool) (v : κ → β) (ks : List κ) (cells : OnceCells κ β) : Option (OnceCells κ β) :=
  ks.foldlM (fun cells k => if p k then set cells k (v k) else some cells) cells

def getOrInit (cells : OnceCells κ β) (k : κ) (init : OnceCells κ β → Option (β × OnceCells κ β)) :
    Option (β × OnceCells κ β) :=
  match cells k with
  | .done b => some (b, cells)
  | .running => none
  | .unset => do
      let (b, cells) ← init (Function.update cells k .running)
      return (b, Function.update cells k (.done b))

variable {cells cells' : OnceCells κ β} {k : κ} {b : β} {p : κ → Bool} {v : κ → β} {ks : List κ}

/-! ## Writing -/

structure Filled (wrote : Prop) (v : β) (before after : OnceCell β) : Prop where
  filled : wrote → before = .unset → after = .done v
  kept : ¬ wrote ∨ before ≠ .unset → after = before

theorem set_running (h : cells k = .running) (b : β) : set cells k b = none := by
  rw [set, h]

theorem set_of_ne_running (h : cells k ≠ .running) (b : β) :
    ∃ cells', set cells k b = some cells' ∧ ∀ l, Filled (l = k) b (cells l) (cells' l) := by
  cases hk : cells k with
  | unset =>
      refine ⟨Function.update cells k (.done b), by rw [set, hk], fun l => ⟨fun hl _ => ?_, fun hl => ?_⟩⟩
      · rw [hl, Function.update_self]
      · have hne : l ≠ k := by
          rcases hl with hl | hl
          · exact hl
          · intro heq
            exact hl (heq ▸ hk)
        exact Function.update_of_ne hne _ _
  | running => exact absurd hk h
  | done b' =>
      refine ⟨cells, by rw [set, hk], fun l => ⟨fun hl hunset => ?_, fun _ => rfl⟩⟩
      rw [hl, hk] at hunset
      cases hunset

theorem setEach_running (hk : k ∈ ks) (hp : p k = true) (h : cells k = .running) : setEach p v ks cells = none := by
  induction ks generalizing cells with
  | nil => cases hk
  | cons l ks ih =>
      rw [setEach, List.foldlM_cons]
      by_cases hl : l = k
      · rw [hl, if_pos hp, set_running h]
        rfl
      · have hrest : k ∈ ks := (List.mem_cons.mp hk).resolve_left (Ne.symm hl)
        cases hpl : p l with
        | false => exact ih hrest h
        | true =>
            rw [if_pos rfl]
            cases hset : set cells l (v l) with
            | none => rfl
            | some cells' =>
                have hne : cells l ≠ .running := by
                  intro hrunning
                  rw [set_running hrunning] at hset
                  cases hset
                obtain ⟨cells'', hset', hfilled⟩ := set_of_ne_running hne (v l)
                rw [hset, Option.some.injEq] at hset'
                exact ih hrest (by rw [hset', (hfilled k).kept (.inl (Ne.symm hl)), h])

theorem setEach_of_ne_running (h : ∀ k ∈ ks, p k = true → cells k ≠ .running) :
    ∃ cells', setEach p v ks cells = some cells' ∧ ∀ l, Filled (l ∈ ks ∧ p l = true) (v l) (cells l) (cells' l) := by
  induction ks generalizing cells with
  | nil => exact ⟨cells, rfl, fun l => ⟨fun hl => absurd hl.1 List.not_mem_nil, fun _ => rfl⟩⟩
  | cons k ks ih =>
      rw [setEach, List.foldlM_cons]
      cases hp : p k with
      | false =>
          obtain ⟨cells', hset, hfilled⟩ := ih fun l hl => h l (List.mem_cons_of_mem _ hl)
          refine ⟨cells', hset, fun l => ⟨fun hl => (hfilled l).filled ⟨?_, hl.2⟩, fun hl => (hfilled l).kept ?_⟩⟩
          · refine (List.mem_cons.mp hl.1).resolve_left fun heq => ?_
            rw [heq, hp] at hl
            exact Bool.false_ne_true hl.2
          · exact hl.imp_left fun hnot hin => hnot ⟨List.mem_cons_of_mem _ hin.1, hin.2⟩
      | true =>
          obtain ⟨cells₁, hset₁, hfilled₁⟩ := set_of_ne_running (h k List.mem_cons_self hp) (v k)
          rw [if_pos rfl, hset₁]
          have hrunning : ∀ l ∈ ks, p l = true → cells₁ l ≠ .running := by
            intro l hl hpl
            by_cases hwrote : l = k ∧ cells l = .unset
            · rw [(hfilled₁ l).filled hwrote.1 hwrote.2]
              exact fun h => by cases h
            · rw [(hfilled₁ l).kept (not_and_or.mp hwrote)]
              exact h l (List.mem_cons_of_mem _ hl) hpl
          obtain ⟨cells', hset, hfilled⟩ := ih hrunning
          refine ⟨cells', hset, fun l => ⟨fun hl hunset => ?_, fun hl => ?_⟩⟩
          · by_cases heq : l = k
            · have hdone := (hfilled₁ l).filled heq hunset
              rw [(hfilled l).kept (.inr (by rw [hdone]; exact fun h => by cases h)), hdone, heq]
            · have hsame := (hfilled₁ l).kept (.inl heq)
              exact (hfilled l).filled ⟨(List.mem_cons.mp hl.1).resolve_left heq, hl.2⟩ (hsame.trans hunset)
          · have hfirst : cells₁ l = cells l := by
              refine (hfilled₁ l).kept (hl.imp_left fun hnot heq => hnot ⟨?_, ?_⟩)
              · rw [heq]
                exact List.mem_cons_self
              · rw [heq, hp]
            rw [← hfirst]
            refine (hfilled l).kept ?_
            rw [hfirst]
            exact hl.imp_left fun hnot hin => hnot ⟨List.mem_cons_of_mem _ hin.1, hin.2⟩

/-! ## Access -/

omit [DecidableEq κ] in
theorem get_running (h : cells k = .running) : get cells k = none := by
  rw [get, h]

theorem getOrInit_done {init : OnceCells κ β → Option (β × OnceCells κ β)} (h : cells k = .done b) :
    getOrInit cells k init = some (b, cells) := by
  rw [getOrInit, h]

theorem getOrInit_unset {init : OnceCells κ β → Option (β × OnceCells κ β)} (h : cells k = .unset)
    (hinit : init (Function.update cells k .running) = some (b, cells')) :
    getOrInit cells k init = some (b, Function.update cells' k (.done b)) := by
  rw [getOrInit, h, hinit]
  rfl

theorem getOrInit_stuck {init : OnceCells κ β → Option (β × OnceCells κ β)} (h : cells k = .unset)
    (hinit : init (Function.update cells k .running) = none) : getOrInit cells k init = none := by
  rw [getOrInit, h, hinit]
  rfl

end OnceCells

end QuicFuscate.Framework
