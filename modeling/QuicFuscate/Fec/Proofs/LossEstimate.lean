import Mathlib.Algebra.Order.BigOperators.Group.List
import Mathlib.Algebra.Order.Field.Basic
import Mathlib.Algebra.Order.Field.Rat
import Mathlib.Data.Bool.Count
import Mathlib.Data.List.DropRight
import Mathlib.Tactic.Linarith
import Mathlib.Tactic.Positivity
import Mathlib.Tactic.Ring
import QuicFuscate.Fec.Control

/-!
# What the loss estimator holds

A report pushes its outcomes through the burst window, so that after any number of reports the window
is the end of the history.  Over the rationals the filter and the moving average form convex
combinations, and everything that starts as a probability stays one.
-/

namespace QuicFuscate.Fec

open Framework

namespace LossEstimator

/-! ## Reports -/

def outcomes (lost total : ℕ) : List Bool := List.replicate lost true ++ List.replicate (total - lost) false

@[simp] theorem count_true_outcomes (lost total : ℕ) : (outcomes lost total).count true = lost := by
  simp [outcomes, List.count_replicate]

@[simp] theorem count_false_outcomes (lost total : ℕ) : (outcomes lost total).count false = total - lost := by
  simp [outcomes, List.count_replicate]

private theorem length_outcomes {lost total : ℕ} (h : lost ≤ total) : (outcomes lost total).length = total := by
  rw [outcomes, List.length_append, List.length_replicate, List.length_replicate]
  omega

private theorem loopTo_push (capacity n : ℕ) (window : List Bool) (b : Bool) :
    loopTo n window (fun _ window => return pushBounded capacity window b) =
      .ok ((List.replicate n b).foldl (pushBounded capacity) window) := by
  apply loopTo_eq (fun i => (List.replicate i b).foldl (pushBounded capacity) window) rfl _ rfl
  intro i _
  rw [List.replicate_succ', List.foldl_append]
  rfl

section Reports

variable {R : Type} [Add R] [Sub R] [Mul R] [Div R] [NatCast R] [OfScientific R]

def reported (e : LossEstimator R) (lost total : ℕ) : LossEstimator R :=
  { e with
    emaLossRate := e.lambda * (e.filtered lost total).1 + (1.0 - e.lambda) * e.emaLossRate
    burstWindow := (outcomes lost total).foldl (pushBounded e.burstCapacity) e.burstWindow
    kalman := (e.filtered lost total).2 }

theorem reportLoss_eq (e : LossEstimator R) {lost total : ℕ} (h : lost ≤ total) :
    e.reportLoss lost total = .ok (e.reported lost total) := by
  have hsub : checkedSub total lost = .ok (total - lost) := if_pos h
  rw [reportLoss, loopTo_push, ok_bind, hsub, ok_bind, loopTo_push, ok_bind, ← List.foldl_append]
  rfl

structure Report where
  lost : ℕ
  total : ℕ
  lost_le : lost ≤ total

/-- A run of `report_loss` calls. -/
def reportAll (e : LossEstimator R) (reports : List Report) : Checked (LossEstimator R) :=
  reports.foldlM (fun e r => e.reportLoss r.lost r.total) e

def history (reports : List Report) : List Bool := reports.flatMap fun r => outcomes r.lost r.total

private theorem length_history (reports : List Report) : (history reports).length = (reports.map Report.total).sum := by
  rw [history, List.length_flatMap]
  congr 1
  apply List.map_congr_left
  intro r _
  exact length_outcomes r.lost_le

private theorem reportAll_eq (e : LossEstimator R) (reports : List Report) :
    e.reportAll reports = .ok (reports.foldl (fun e r => e.reported r.lost r.total) e) := by
  induction reports generalizing e with
  | nil => rfl
  | cons r reports ih =>
      rw [reportAll, List.foldlM_cons, reportLoss_eq e r.lost_le, ok_bind]
      exact ih (e.reported r.lost r.total)

private theorem burstWindow_foldl (e : LossEstimator R) (reports : List Report) :
    (reports.foldl (fun e r => e.reported r.lost r.total) e).burstWindow =
      (history reports).foldl (pushBounded e.burstCapacity) e.burstWindow := by
  induction reports generalizing e with
  | nil => rfl
  | cons r reports ih =>
      have hcons : history (r :: reports) = outcomes r.lost r.total ++ history reports := List.flatMap_cons
      rw [List.foldl_cons, ih, hcons, List.foldl_append]
      rfl

/-- After every run of reports the burst window holds the most recent outcomes. -/
theorem reportAll_burstWindow (lambda : R) {burstCapacity : ℕ} (hcapacity : 1 ≤ burstCapacity)
    (kalman : Option (KalmanFilter R)) (reports : List Report) :
    ∃ e, (new lambda burstCapacity kalman).reportAll reports = .ok e ∧
      e.burstWindow = (history reports).rtake (min burstCapacity (reports.map Report.total).sum) := by
  refine ⟨_, reportAll_eq _ reports, ?_⟩
  have hwindow := burstWindow_foldl (new lambda burstCapacity kalman) reports
  have hlast : (history reports).foldl (pushBounded burstCapacity) [] =
      (history reports).drop ((history reports).length - burstCapacity) := foldl_pushBounded hcapacity _
  rw [hwindow]
  refine hlast.trans ?_
  rw [List.rtake, ← length_history]
  congr 1
  omega

theorem reportAll_burstWindow_two_reports : ∃ e,
    (new (0.1 : ℚ) 3 none).reportAll [⟨1, 2, by decide⟩, ⟨1, 2, by decide⟩] = .ok e ∧
      e.burstWindow = [false, true, false] := by
  obtain ⟨e, hrun, hwindow⟩ :=
    reportAll_burstWindow (0.1 : ℚ) (by decide : 1 ≤ 3) none [⟨1, 2, by decide⟩, ⟨1, 2, by decide⟩]
  exact ⟨e, hrun, hwindow.trans (by decide)⟩

end Reports

end LossEstimator

/-! ## Probabilities -/

def IsProbability (x : ℚ) : Prop := 0 ≤ x ∧ x ≤ 1

theorem IsProbability.combine {t x y : ℚ} (ht : IsProbability t) (hx : IsProbability x) (hy : IsProbability y) :
    IsProbability (t * x + (1 - t) * y) := by
  obtain ⟨ht0, ht1⟩ := ht
  have hrest : 0 ≤ 1 - t := by linarith
  constructor
  · have hleft := mul_nonneg ht0 hx.1
    have hright := mul_nonneg hrest hy.1
    linarith
  · have hleft := mul_le_mul_of_nonneg_left hx.2 ht0
    have hright := mul_le_mul_of_nonneg_left hy.2 hrest
    linarith

private theorem isProbability_div {m n : ℕ} (h : m ≤ n) : IsProbability ((m : ℚ) / n) :=
  ⟨by positivity, div_le_one_of_le₀ (Nat.cast_le.mpr h) (Nat.cast_nonneg n)⟩

/-- The joint invariant of the filter: with positive noise its covariance is positive and its estimate
a probability. -/
structure KalmanFilter.Sound (f : KalmanFilter ℚ) : Prop where
  q_pos : 0 < f.q
  r_pos : 0 < f.r
  errorCov_pos : 0 < f.errorCov
  estimate_prob : IsProbability f.estimate

theorem KalmanFilter.sound_new {q r : ℚ} (hq : 0 < q) (hr : 0 < r) : (KalmanFilter.new q r).Sound where
  q_pos := hq
  r_pos := hr
  errorCov_pos := by norm_num [KalmanFilter.new]
  estimate_prob := by norm_num [KalmanFilter.new, IsProbability]

theorem KalmanFilter.Sound.gain {f : KalmanFilter ℚ} (h : f.Sound) :
    0 < (f.errorCov + f.q) / (f.errorCov + f.q + f.r) ∧ (f.errorCov + f.q) / (f.errorCov + f.q + f.r) < 1 := by
  have hq := h.q_pos
  have hr := h.r_pos
  have hcov := h.errorCov_pos
  constructor
  · positivity
  · rw [div_lt_one (by positivity)]
    linarith

theorem KalmanFilter.Sound.update {f : KalmanFilter ℚ} (h : f.Sound) {z : ℚ} (hz : IsProbability z) :
    (f.update z).2.Sound ∧ IsProbability (f.update z).1 := by
  obtain ⟨hpos, hlt⟩ := h.gain
  have hcov : 0 < f.errorCov + f.q := add_pos h.errorCov_pos h.q_pos
  have hprob : IsProbability (f.update z).1 := by
    have hcombine := IsProbability.combine ⟨hpos.le, hlt.le⟩ hz h.estimate_prob
    convert hcombine using 1
    simp only [KalmanFilter.update]
    ring
  refine ⟨⟨h.q_pos, h.r_pos, ?_, hprob⟩, hprob⟩
  have hrest : 0 < 1 - (f.errorCov + f.q) / (f.errorCov + f.q + f.r) := by linarith
  have hprod := mul_pos hcov hrest
  simp only [KalmanFilter.update]
  norm_num
  exact hprod

private theorem ite_error_eq_ok {α : Type} {p : Prop} [Decidable p] {message : String} {x : Except String α} {a : α} :
    (if p then .error message else x) = .ok a ↔ ¬ p ∧ x = .ok a := by
  split <;> simp_all

theorem FecConfig.validate_eq_ok (config : FecConfig ℚ) :
    config.validate = .ok () ↔ IsProbability config.lambda ∧ config.burstWindow ≠ 0 ∧
      (0 ≤ config.hysteresis ∧ config.hysteresis < 1) ∧
      (config.kalmanEnabled = true → 0 < config.kalmanQ ∧ 0 < config.kalmanR) := by
  have hzero : (0.0 : ℚ) = 0 := by norm_num
  have hone : (1.0 : ℚ) = 1 := by norm_num
  unfold FecConfig.validate IsProbability
  rw [hzero, hone]
  simp only [ite_error_eq_ok, not_not, ne_eq, and_true]
  rw [not_and, not_or, not_le, not_le]

namespace LossEstimator

structure Sound (e : LossEstimator ℚ) : Prop where
  lambda_prob : IsProbability e.lambda
  ema_prob : IsProbability e.emaLossRate
  kalman_sound : ∀ f ∈ e.kalman, f.Sound

variable {e : LossEstimator ℚ}

theorem Sound.filtered (h : Sound e) {lost total : ℕ} (hle : lost ≤ total) :
    IsProbability (e.filtered lost total).1 ∧ ∀ f ∈ (e.filtered lost total).2, f.Sound := by
  have hrate : IsProbability (if total > 0 then (lost : ℚ) / (total : ℚ) else 0.0) := by
    split
    · exact isProbability_div hle
    · norm_num [IsProbability]
  unfold LossEstimator.filtered
  cases hkalman : e.kalman with
  | none => exact ⟨hrate, by simp⟩
  | some kf =>
      have hupdate := (h.kalman_sound kf hkalman).update hrate
      refine ⟨hupdate.2, ?_⟩
      intro f hf
      cases hf
      exact hupdate.1

theorem Sound.reported (h : Sound e) {lost total : ℕ} (hle : lost ≤ total) : Sound (e.reported lost total) where
  lambda_prob := h.lambda_prob
  ema_prob := by
    have hcombine := h.lambda_prob.combine (h.filtered hle).1 h.ema_prob
    have hone : (1.0 : ℚ) = 1 := by norm_num
    rw [LossEstimator.reported, hone]
    exact hcombine
  kalman_sound := (h.filtered hle).2

theorem Sound.run (h : Sound e) (reports : List Report) :
    Sound (reports.foldl (fun e r => e.reported r.lost r.total) e) := by
  induction reports generalizing e with
  | nil => exact h
  | cons r reports ih => exact ih (h.reported r.lost_le)

theorem sound_ofConfig {config : FecConfig ℚ} (h : config.validate = .ok ()) : Sound (ofConfig config) := by
  obtain ⟨hlambda, -, -, hkalman⟩ := config.validate_eq_ok.mp h
  refine ⟨hlambda, by norm_num [ofConfig, new, IsProbability], ?_⟩
  intro f hf
  by_cases henabled : config.kalmanEnabled = true
  · have hnoise := hkalman henabled
    simp only [ofConfig, new, henabled, if_true] at hf
    cases hf
    exact KalmanFilter.sound_new hnoise.1 hnoise.2
  · simp [ofConfig, new, henabled] at hf

def burstFraction (e : LossEstimator ℚ) : ℚ := (e.burstWindow.count true : ℚ) / e.burstWindow.length

theorem getEstimatedLoss_eq (e : LossEstimator ℚ) : e.getEstimatedLoss = max e.emaLossRate e.burstFraction := by
  unfold getEstimatedLoss burstFraction
  split
  · rename_i hempty
    rw [List.isEmpty_iff.mp hempty]
    norm_num
  · rfl

theorem Sound.estimate (h : Sound e) : e.burstFraction ≤ e.getEstimatedLoss ∧ e.getEstimatedLoss ≤ 1 := by
  rw [getEstimatedLoss_eq]
  exact ⟨le_max_right _ _, max_le h.ema_prob.2 (isProbability_div List.count_le_length).2⟩

/-- In every state that a valid configuration reaches, the estimates are probabilities, and the filter
does not divide by zero at the next report. -/
theorem reportAll_probabilities {config : FecConfig ℚ} (h : config.validate = .ok ()) (reports : List Report) :
    ∃ e, (ofConfig config).reportAll reports = .ok e ∧
      (∀ f ∈ e.kalman, 0 < f.errorCov ∧ 0 < f.errorCov + f.q + f.r ∧ 0 ≤ f.estimate ∧ f.estimate ≤ 1) ∧
      (0 ≤ e.emaLossRate ∧ e.emaLossRate ≤ 1) ∧
      e.burstFraction ≤ e.getEstimatedLoss ∧ e.getEstimatedLoss ≤ 1 := by
  have hsound := (sound_ofConfig h).run reports
  refine ⟨_, reportAll_eq _ reports, ?_, hsound.ema_prob, hsound.estimate⟩
  intro f hf
  have hf := hsound.kalman_sound f hf
  have hq := hf.q_pos
  have hr := hf.r_pos
  have hcov := hf.errorCov_pos
  exact ⟨hcov, by positivity, hf.estimate_prob⟩

/-- The default configuration with the filter switched on, after a report without packets and one with
half of them lost. -/
theorem reportAll_probabilities_filtered :
    let config : FecConfig ℚ := { FecConfig.default with kalmanEnabled := true }
    config.validate = .ok () ∧ ∃ e, (ofConfig config).reportAll [⟨0, 0, le_rfl⟩, ⟨1, 2, by decide⟩] = .ok e ∧
      e.kalman.isSome ∧ e.burstFraction = 1 / 2 ∧ 1 / 2 ≤ e.getEstimatedLoss ∧ e.getEstimatedLoss ≤ 1 := by
  intro config
  have hvalid : config.validate = .ok () := by decide +kernel
  obtain ⟨e, hrun, -, -, hestimate⟩ := reportAll_probabilities hvalid [⟨0, 0, le_rfl⟩, ⟨1, 2, by decide⟩]
  have he := Except.ok.inj ((reportAll_eq _ _).symm.trans hrun)
  have hkalman : e.kalman.isSome := by rw [← he]; rfl
  have hfraction : e.burstFraction = 1 / 2 := by rw [← he]; decide +kernel
  exact ⟨hvalid, e, hrun, hkalman, hfraction, hfraction ▸ hestimate⟩

end LossEstimator

end QuicFuscate.Fec
