import Mathlib.Tactic.Common

/-!
# Runs whose steps meet a condition

A sequence of calls is run from a state by a relation that says what one call may do.  `Always`
speaks of the states on the way and `Guarded` of the calls and the states in which they are made.
A call that cannot be made ends the run.
-/

namespace QuicFuscate.Framework

variable {σ γ : Type} (step : σ → γ → σ → Prop)

def Always (P : σ → Prop) : σ → List γ → Prop
  | s, [] => P s
  | s, c :: cs => P s ∧ ∀ t, step s c t → Always P t cs

def Guarded (guard : σ → γ → Prop) : σ → List γ → Prop
  | _, [] => True
  | s, c :: cs => guard s c ∧ ∀ t, step s c t → Guarded guard t cs

variable {step} {P : σ → Prop} {domain guard : σ → γ → Prop} (Inv : σ → Prop)

/-- A condition on the calls is exact for a property of the states when a call that meets it keeps
the property and one that does not can lose it. -/
theorem always_iff_guarded (hinv : ∀ s c t, Inv s → domain s c → step s c t → Inv t)
    (hkeep : ∀ s c t, Inv s → P s → domain s c → guard s c → step s c t → P t)
    (hlose : ∀ s c, Inv s → P s → domain s c → ¬guard s c → ∃ t, step s c t ∧ ¬P t) {s : σ} (hs : Inv s) (hP : P s)
    {cs : List γ} (hdomain : Guarded step domain s cs) : Always step P s cs ↔ Guarded step guard s cs := by
  induction cs generalizing s with
  | nil => exact ⟨fun _ => trivial, fun _ => hP⟩
  | cons c cs ih =>
      obtain ⟨hc, hrest⟩ := hdomain
      constructor
      · rintro ⟨-, halways⟩
        have hfirst : ∀ t, step s c t → P t := by
          intro t ht
          have h := halways t ht
          cases cs with
          | nil => exact h
          | cons _ _ => exact h.1
        have hguard : guard s c := by
          by_contra hnot
          obtain ⟨t, ht, hlost⟩ := hlose s c hs hP hc hnot
          exact hlost (hfirst t ht)
        exact ⟨hguard, fun t ht => (ih (hinv s c t hs hc ht) (hfirst t ht) (hrest t ht)).mp (halways t ht)⟩
      · rintro ⟨hguard, hguarded⟩
        refine ⟨hP, fun t ht => ?_⟩
        exact (ih (hinv s c t hs hc ht) (hkeep s c t hs hP hc hguard ht) (hrest t ht)).mpr (hguarded t ht)

/-- A condition on the calls is exact for a law about the calls when both agree on every state that the calls
which meet the condition lead to. -/
theorem guarded_iff_guarded {law : σ → γ → Prop}
    (hinv : ∀ s c t, Inv s → domain s c → guard s c → step s c t → Inv t)
    (hiff : ∀ s c, Inv s → domain s c → (law s c ↔ guard s c)) {s : σ} (hs : Inv s) {cs : List γ}
    (hdomain : Guarded step domain s cs) : Guarded step law s cs ↔ Guarded step guard s cs := by
  induction cs generalizing s with
  | nil => exact Iff.rfl
  | cons c cs ih =>
      obtain ⟨hc, hrest⟩ := hdomain
      rw [Guarded, Guarded, hiff s c hs hc]
      apply and_congr_right
      intro hguard
      apply forall_congr'
      intro t
      apply imp_congr_right
      intro ht
      exact ih (hinv s c t hs hc hguard ht) (hrest t ht)

end QuicFuscate.Framework
