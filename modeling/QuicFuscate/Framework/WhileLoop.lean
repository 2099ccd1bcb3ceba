import Mathlib.Order.Basic
import Mathlib.Tactic.Common

/-!
# Loops that need not end

A `while` loop is run with fuel, one unit for each test of its condition; `none` means that the
fuel did not suffice.  The rules give an invariant for every run that ends, a run that ends for
every loop whose body decreases a measure, and none for a loop whose condition stays true.
-/

namespace QuicFuscate.Framework

variable {σ : Type}

def whileLoop (cond : σ → Bool) (body : σ → σ) : ℕ → σ → Option σ
  | 0, _ => none
  | fuel + 1, s => if cond s then whileLoop cond body fuel (body s) else some s

variable {cond : σ → Bool} {body : σ → σ} (Inv : σ → Prop)

theorem whileLoop_invariant (hbody : ∀ s, Inv s → cond s = true → Inv (body s)) {fuel : ℕ} {s t : σ}
    (hs : Inv s) (hrun : whileLoop cond body fuel s = some t) : Inv t ∧ cond t = false := by
  induction fuel generalizing s with
  | zero => simp [whileLoop] at hrun
  | succ fuel ih =>
      rw [whileLoop] at hrun
      split at hrun
      · rename_i hc
        exact ih (hbody s hs hc) hrun
      · rename_i hc
        rw [← Option.some.inj hrun]
        exact ⟨hs, by simpa using hc⟩

/-- A loop whose condition an invariant keeps true does not end. -/
theorem whileLoop_diverges (hcond : ∀ s, Inv s → cond s = true) (hbody : ∀ s, Inv s → Inv (body s)) {s : σ}
    (hs : Inv s) (fuel : ℕ) : whileLoop cond body fuel s = none := by
  induction fuel generalizing s with
  | zero => rfl
  | succ fuel ih =>
      rw [whileLoop, if_pos (hcond s hs)]
      exact ih (hbody s hs)

theorem whileLoop_unique {fuel fuel' : ℕ} {s t t' : σ} (h : whileLoop cond body fuel s = some t)
    (h' : whileLoop cond body fuel' s = some t') : t = t' := by
  induction fuel generalizing fuel' s with
  | zero => simp [whileLoop] at h
  | succ fuel ih =>
      cases fuel' with
      | zero => simp [whileLoop] at h'
      | succ fuel' =>
          rw [whileLoop] at h h'
          split at h
          · rename_i hc
            rw [if_pos hc] at h'
            exact ih h h'
          · rename_i hc
            rw [if_neg hc] at h'
            exact Option.some.inj (h.symm.trans h')

theorem whileLoop_terminates (measure : σ → ℕ)
    (hbody : ∀ s, Inv s → cond s = true → Inv (body s) ∧ measure (body s) < measure s) {fuel : ℕ} {s : σ}
    (hs : Inv s) (hfuel : measure s < fuel) : ∃ t, whileLoop cond body fuel s = some t := by
  induction fuel generalizing s with
  | zero => omega
  | succ fuel ih =>
      rw [whileLoop]
      split
      · rename_i hc
        have hstep := hbody s hs hc
        exact ih hstep.1 (by omega)
      · exact ⟨s, rfl⟩

end QuicFuscate.Framework
