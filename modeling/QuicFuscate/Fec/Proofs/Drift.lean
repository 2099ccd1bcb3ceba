import Mathlib.Algebra.Order.Field.Rat
import Mathlib.Data.List.Chain
import Mathlib.Tactic.FieldSimp
import Mathlib.Tactic.Positivity
import QuicFuscate.Fec.Proofs.Control

/-!
# The mode controller on a steady path

The controller moves away from the loss, and the next mode has the next larger threshold, so that the error that it
integrates only grows.  On a path whose estimate does not change, the manager therefore leaves in the direction that its
first mode sets and does not stop before the last mode of that direction.  The numbers are rationals here.
-/

namespace QuicFuscate.Fec

/-! ## Directions -/

/-- Towards more redundancy, or towards less. -/
inductive Drift
  | up
  | down
  deriving DecidableEq, Repr

namespace Drift

def sign : Drift → ℚ
  | up => 1
  | down => -1

def move : Drift → FecMode → FecMode
  | up => FecMode.nextMode
  | down => FecMode.prevMode

def goal : Drift → FecMode
  | up => .extreme
  | down => .zero

def left : Drift → FecMode → ℕ
  | up, mode => 5 - mode.level
  | down, mode => mode.level

def gap (d : Drift) (p : ℚ) (mode : FecMode) : ℚ := d.sign * (PidModeManager.defaultThresholds mode - p)

variable {d : Drift}

private theorem left_move (d : Drift) (mode : FecMode) : d.left (d.move mode) = d.left mode - 1 := by
  cases d <;> cases mode <;> rfl

theorem left_eq_zero_iff (d : Drift) (mode : FecMode) : d.left mode = 0 ↔ mode = d.goal := by
  cases d <;> cases mode <;> decide

private theorem left_le (d : Drift) (mode : FecMode) : d.left mode ≤ 5 := by
  cases d <;> cases mode <;> decide

private theorem gap_move (d : Drift) (p : ℚ) (mode : FecMode) : d.gap p mode ≤ d.gap p (d.move mode) := by
  cases d with
  | up =>
      rw [gap, gap, sign, one_mul, one_mul]
      apply sub_le_sub_right
      cases mode <;> norm_num [move, FecMode.nextMode, PidModeManager.defaultThresholds]
  | down =>
      rw [gap, gap, sign, neg_one_mul, neg_one_mul]
      apply neg_le_neg
      apply sub_le_sub_right
      cases mode <;> norm_num [move, FecMode.prevMode, PidModeManager.defaultThresholds]

end Drift

/-- An output in a direction does not move against it, and moves if it leaves the dead band. -/
theorem ModeManager.newMode_drifts (d : Drift) {m : ModeManager} {r : Reading} {output : ℚ}
    (hout : r.output = suggestion output) (hsign : 0 ≤ d.sign * output) :
    (m.newMode r = m.currentMode ∨ m.newMode r = d.move m.currentMode) ∧
      (1 / 10 < d.sign * output → m.newMode r = d.move m.currentMode) := by
  rw [newMode, hout]
  cases d with
  | up =>
      rw [Drift.sign, one_mul] at hsign ⊢
      rcases PidModeManager.suggestion_cases output with ⟨-, hs⟩ | ⟨hless, -⟩ | ⟨hkeep, hs⟩
      · rw [hs]
        exact ⟨.inr rfl, fun _ => rfl⟩
      · linarith
      · rw [hs]
        exact ⟨.inl rfl, fun hbig => absurd hkeep.2 (not_le.mpr hbig)⟩
  | down =>
      rw [Drift.sign, neg_one_mul] at hsign ⊢
      rcases PidModeManager.suggestion_cases output with ⟨hmore, -⟩ | ⟨-, hs⟩ | ⟨hkeep, hs⟩
      · linarith
      · rw [hs]
        exact ⟨.inr rfl, fun _ => rfl⟩
      · rw [hs]
        exact ⟨.inl rfl, fun hbig => by linarith [hkeep.1]⟩

namespace PidModeManager

theorem asSecs_eq (nanos : ℕ) : (asSecs nanos : ℚ) = nanos / 1000000000 := by
  have hsplit : (nanos : ℚ) = ((1000000000 * (nanos / 1000000000) + nanos % 1000000000 : ℕ) : ℚ) := by
    rw [Nat.div_add_mod]
  rw [asSecs, hsplit]
  push_cast
  field_simp

private theorem asSecs_add {a b c : ℕ} (hab : a ≤ b) (hbc : b ≤ c) :
    (asSecs (b - a) : ℚ) + asSecs (c - b) = asSecs (c - a) := by
  rw [asSecs_eq, asSecs_eq, asSecs_eq, Nat.cast_sub hab, Nat.cast_sub hbc, Nat.cast_sub (hab.trans hbc)]
  ring

/-! ## One call -/

/-- A manager that was constructed at `start` with mode `first` and has been called until `now` with
the estimate `p`. -/
structure Drifting (d : Drift) (config : PidConfig ℚ) (hysteresis p : ℚ) (first : FecMode) (start now : ℕ)
    (m : PidModeManager ℚ) : Prop where
  config_eq : m.pid.config = config
  thresholds_eq : m.modeThresholds = defaultThresholds
  hysteresis_eq : m.hysteresis = hysteresis
  gap_le : d.gap p first ≤ d.gap p m.currentMode
  integral_ge : d.gap p first * asSecs (m.pid.lastTime - start) ≤ d.sign * m.pid.integral
  previous_le : d.sign * m.pid.previousError ≤ d.gap p m.currentMode
  start_le : start ≤ m.pid.lastTime
  lastTime_le : m.pid.lastTime ≤ now
  change_le : m.lastModeChange ≤ now

variable {d : Drift} {config : PidConfig ℚ} {hysteresis p : ℚ} {first : FecMode} {start now : ℕ} {m : PidModeManager ℚ}
  {clock : Clock}

/-- Gains that are not negative, and an estimate that is no emergency. -/
structure Steady (config : PidConfig ℚ) (hysteresis p : ℚ) : Prop where
  kp_nonneg : 0 ≤ config.kp
  ki_nonneg : 0 ≤ config.ki
  kd_nonneg : 0 ≤ config.kd
  loss_le : p ≤ defaultThresholds .strong + hysteresis

theorem Drifting.mono {now' : ℕ} (h : Drifting d config hysteresis p first start now m) (hle : now ≤ now') :
    Drifting d config hysteresis p first start now' m :=
  { h with
    lastTime_le := h.lastTime_le.trans hle
    change_le := h.change_le.trans hle }

theorem Drifting.isEmergency (h : Drifting d config hysteresis p first start now m)
    (hsteady : Steady config hysteresis p) :
    m.isEmergency p = false := by
  have hle := hsteady.loss_le
  rw [← h.thresholds_eq, ← h.hysteresis_eq] at hle
  rw [PidModeManager.isEmergency, decide_eq_false_iff_not]
  exact not_lt.mpr hle

theorem Drifting.control (h : Drifting d config hysteresis p first start now m) (hsteady : Steady config hysteresis p)
    (hgap : 0 ≤ d.gap p first) (hnow : now ≤ clock.control) :
    0 ≤ d.sign * (m.control p clock.control).1 ∧
      (m.pid.lastTime < clock.control →
        config.ki * (d.gap p first * asSecs (clock.control - start)) ≤ d.sign * (m.control p clock.control).1) ∧
      d.gap p first * asSecs (clock.control - start) ≤ d.sign * (m.control p clock.control).2.integral ∧
      d.sign * (m.control p clock.control).2.previousError ≤ d.gap p m.currentMode ∧
      (m.control p clock.control).2.lastTime = clock.control ∧ (m.control p clock.control).2.config = config := by
  have hlast := h.lastTime_le.trans hnow
  have hgap' : 0 ≤ d.gap p m.currentMode := hgap.trans h.gap_le
  rw [PidModeManager.control, PidController.update]
  dsimp only
  rcases hlast.eq_or_lt with heq | hlt
  · -- no time has passed since the last answer
    have hzero : (asSecs (clock.control - m.pid.lastTime) : ℚ) ≤ 0.0 := by
      rw [heq, Nat.sub_self, asSecs_eq]
      norm_num
    rw [if_pos hzero, ← heq]
    exact ⟨by norm_num, fun hlt => absurd hlt (lt_irrefl _), h.integral_ge, h.previous_le, rfl, h.config_eq⟩
  · have hdt : (0 : ℚ) < asSecs (clock.control - m.pid.lastTime) := asSecs_pos (Nat.sub_pos_of_lt hlt)
    have hpos : ¬ (asSecs (clock.control - m.pid.lastTime) : ℚ) ≤ 0.0 := by
      norm_num
      exact hdt
    rw [if_neg hpos]
    dsimp only
    have herror : d.sign * (m.modeThresholds m.currentMode - p) = d.gap p m.currentMode := by
      rw [h.thresholds_eq, Drift.gap]
    have hintegral : d.gap p first * asSecs (clock.control - start) ≤
        d.sign * (m.pid.integral + (m.modeThresholds m.currentMode - p) * asSecs (clock.control - m.pid.lastTime)) := by
      rw [mul_add, ← mul_assoc, herror, ← asSecs_add h.start_le hlast, mul_add]
      exact add_le_add h.integral_ge (mul_le_mul_of_nonneg_right h.gap_le hdt.le)
    have hderivative : 0 ≤ d.sign *
        ((m.modeThresholds m.currentMode - p - m.pid.previousError) / asSecs (clock.control - m.pid.lastTime)) := by
      rw [← mul_div_assoc, mul_sub, herror]
      exact div_nonneg (sub_nonneg.mpr h.previous_le) hdt.le
    have helapsed : (0 : ℚ) ≤ asSecs (clock.control - start) := by
      rw [asSecs_eq]
      positivity
    have hfloor : 0 ≤ config.ki * (d.gap p first * asSecs (clock.control - start)) :=
      mul_nonneg hsteady.ki_nonneg (mul_nonneg hgap helapsed)
    have houtput : config.ki * (d.gap p first * asSecs (clock.control - start)) ≤
        d.sign * (config.kp * (m.modeThresholds m.currentMode - p) +
          config.ki *
            (m.pid.integral + (m.modeThresholds m.currentMode - p) * asSecs (clock.control - m.pid.lastTime)) +
          config.kd *
            ((m.modeThresholds m.currentMode - p - m.pid.previousError) /
              asSecs (clock.control - m.pid.lastTime))) := by
      have hp := mul_nonneg hsteady.kp_nonneg hgap'
      have hi := mul_le_mul_of_nonneg_left hintegral hsteady.ki_nonneg
      have hd := mul_nonneg hsteady.kd_nonneg hderivative
      rw [← herror] at hp
      linarith [mul_left_comm d.sign config.kp (m.modeThresholds m.currentMode - p)]
    rw [h.config_eq]
    exact ⟨hfloor.trans houtput, fun _ => houtput, hintegral, herror.le, rfl, rfl⟩

/-- A call moves in the direction or not at all.  It moves if the dwell time is over and the integral has left the dead
band. -/
theorem Drifting.step (h : Drifting d config hysteresis p first start now m) (hsteady : Steady config hysteresis p)
    (hgap : 0 ≤ d.gap p first) (hnow : now ≤ clock.check) :
    Drifting d config hysteresis p first start clock.change (m.update p clock).2 ∧
      ((m.update p clock).2.currentMode = m.currentMode ∨ (m.update p clock).2.currentMode = d.move m.currentMode) ∧
      (now + ModeManager.minDwellTime ≤ clock.check →
        1 / 10 < config.ki * (d.gap p first * asSecs (clock.control - start)) →
          (m.update p clock).2.currentMode = d.move m.currentMode) := by
  have hmono := clock.mono
  have hem := h.isEmergency hsteady
  have hchange := h.change_le
  by_cases hdwell : clock.check - m.lastModeChange < ModeManager.minDwellTime
  · rw [update_early hem hdwell]
    refine ⟨h.mono (hnow.trans (hmono.1.trans hmono.2)), .inl rfl, fun hlate _ => ?_⟩
    omega
  · obtain ⟨hsign, hlate, hintegral, hprevious, htime, hconfig⟩ := h.control hsteady hgap (hnow.trans hmono.1)
    have hout : (m.controlled p clock).output = suggestion (m.control p clock.control).1 := rfl
    obtain ⟨hcases, hmoves⟩ := ModeManager.newMode_drifts d (m := m.toModeManager) hout hsign
    rw [update_controlled hem (Nat.le_of_not_lt hdwell)]
    dsimp only
    rw [ModeManager.adjusted_currentMode]
    have hmoved : d.gap p m.currentMode ≤ d.gap p (m.toModeManager.newMode (m.controlled p clock)) := by
      rcases hcases with hsame | hmove
      · rw [hsame]
      · rw [hmove]
        exact d.gap_move p m.currentMode
    refine ⟨?_, hcases, fun hspaced hbig => hmoves ?_⟩
    · exact {
        config_eq := hconfig
        thresholds_eq := h.thresholds_eq
        hysteresis_eq := h.hysteresis_eq
        gap_le := by
          dsimp only
          rw [ModeManager.adjusted_currentMode]
          exact h.gap_le.trans hmoved
        integral_ge := by
          dsimp only
          rw [htime]
          exact hintegral
        previous_le := by
          dsimp only
          rw [ModeManager.adjusted_currentMode]
          exact hprevious.trans hmoved
        start_le := by
          dsimp only
          rw [htime]
          exact h.start_le.trans (h.lastTime_le.trans (hnow.trans hmono.1))
        lastTime_le := by
          dsimp only
          rw [htime]
          exact hmono.2
        change_le := by
          have hnever : (m.controlled p clock).now = clock.change := rfl
          dsimp only
          rw [ModeManager.adjusted_lastModeChange, hnever]
          split
          · exact le_rfl
          · omega }
    · have hpos : 0 < ModeManager.minDwellTime := by decide
      have hlast := h.lastTime_le
      exact hbig.trans_le (hlate (by omega))

/-! ## Runs -/

variable {s : Observed ℚ} {calls : List (Call ℚ)}

def endOf : ℕ → List (Call ℚ) → ℕ
  | now, [] => now
  | _, call :: calls => endOf call.clock.change calls

private theorem endOf_concat (now : ℕ) (calls : List (Call ℚ)) (call : Call ℚ) :
    endOf now (calls ++ [call]) = call.clock.change := by
  induction calls generalizing now with
  | nil => rfl
  | cons c calls ih => exact ih c.clock.change

theorem ticks_append {early late : List (Call ℚ)} (h : Ticks now (early ++ late)) :
    Ticks now early ∧ Ticks (endOf now early) late := by
  induction early generalizing now with
  | nil => exact ⟨trivial, h⟩
  | cons call early ih => exact ⟨⟨h.1, (ih h.2).1⟩, (ih h.2).2⟩

theorem Drifting.run (h : Drifting d config hysteresis p first start now s.manager)
    (hsteady : Steady config hysteresis p)
    (hgap : 0 ≤ d.gap p first) (hticks : Ticks now calls) (hloss : ∀ call ∈ calls, call.estimatedLoss = p) :
    Drifting d config hysteresis p first start (endOf now calls) (s.run calls).manager ∧
      d.left (s.run calls).manager.currentMode ≤ d.left s.manager.currentMode := by
  induction calls generalizing s now with
  | nil => exact ⟨h, le_rfl⟩
  | cons call calls ih =>
      have hp : call.estimatedLoss = p := hloss call List.mem_cons_self
      obtain ⟨hnext, hcases, -⟩ := h.step hsteady hgap hticks.1
      have hmanager : (s.step call).manager = (s.manager.update p call.clock).2 := by rw [Observed.step, hp]
      rw [← hmanager] at hnext hcases
      obtain ⟨hend, hle⟩ := ih hnext hticks.2 fun c hc => hloss c (List.mem_cons_of_mem _ hc)
      refine ⟨hend, hle.trans ?_⟩
      rcases hcases with hsame | hmove
      · rw [hsame]
      · rw [hmove, d.left_move]
        exact Nat.sub_le _ _

/-- Every call is over for the dwell time when the next one begins. -/
def Spaced (calls : List (Call ℚ)) : Prop :=
  calls.IsChain fun call next => call.clock.change + ModeManager.minDwellTime ≤ next.clock.check

/-- Spaced calls after the dead band move once each. -/
theorem Drifting.run_spaced (h : Drifting d config hysteresis p first start now s.manager)
    (hsteady : Steady config hysteresis p) (hgap : 0 ≤ d.gap p first) (hspaced : Spaced calls)
    (hfirst : ∀ call ∈ calls.head?, now + ModeManager.minDwellTime ≤ call.clock.check)
    (hloss : ∀ call ∈ calls, call.estimatedLoss = p)
    (hbig : ∀ call ∈ calls, 1 / 10 < config.ki * (d.gap p first * asSecs (call.clock.control - start))) :
    d.left (s.run calls).manager.currentMode ≤ d.left s.manager.currentMode - calls.length := by
  induction calls generalizing s now with
  | nil => exact le_rfl
  | cons call calls ih =>
      have hdwell := hfirst call rfl
      have hp : call.estimatedLoss = p := hloss call List.mem_cons_self
      have hnow : now ≤ call.clock.check := (Nat.le_add_right _ _).trans hdwell
      obtain ⟨hnext, -, hmoves⟩ := h.step hsteady hgap hnow
      have hmanager : (s.step call).manager = (s.manager.update p call.clock).2 := by rw [Observed.step, hp]
      have hmove := hmoves hdwell (hbig call List.mem_cons_self)
      rw [← hmanager] at hnext hmove
      rw [Spaced, List.isChain_cons] at hspaced
      have hle := ih hnext hspaced.2 hspaced.1 (fun c hc => hloss c (List.mem_cons_of_mem _ hc))
        fun c hc => hbig c (List.mem_cons_of_mem _ hc)
      rw [hmove, d.left_move] at hle
      rw [List.length_cons]
      change d.left ((s.step call).run calls).manager.currentMode ≤ _
      omega

theorem drifting_start (d : Drift) (config : PidConfig ℚ) (hysteresis : ℚ) (first : FecMode)
    (windowSizes : FecMode → Option ℕ) (start : ℕ) (hgap : 0 ≤ d.gap p first) :
    Drifting d config hysteresis p first start start
      (Observed.start config hysteresis first windowSizes start).manager where
  config_eq := rfl
  thresholds_eq := rfl
  hysteresis_eq := rfl
  gap_le := le_rfl
  integral_ge := by
    change d.gap p first * asSecs (start - start) ≤ d.sign * 0.0
    rw [Nat.sub_self, asSecs_eq]
    norm_num
  previous_le := by
    change d.sign * 0.0 ≤ d.gap p first
    norm_num
    exact hgap
  start_le := le_rfl
  lastTime_le := le_rfl
  change_le := le_rfl

def modeAfter (config : PidConfig ℚ) (hysteresis : ℚ) (first : FecMode) (windowSizes : FecMode → Option ℕ) (start : ℕ)
    (calls : List (Call ℚ)) : FecMode :=
  ((Observed.start config hysteresis first windowSizes start).run calls).manager.currentMode

/-- At least six calls that are a dwell time apart, and come when the integral of the first error is out of the dead
band. -/
structure Lasting (config : PidConfig ℚ) (p : ℚ) (first : FecMode) (start : ℕ) (calls : List (Call ℚ)) : Prop where
  length_ge : 6 ≤ calls.length
  spaced : Spaced calls
  outside : ∀ call ∈ calls, 1 / 10 < config.ki * (|defaultThresholds first - p| * asSecs (call.clock.control - start))

private theorem left_modeAfter_le (d : Drift) (windowSizes : FecMode → Option ℕ) (hsteady : Steady config hysteresis p)
    (hgap : 0 ≤ d.gap p first) {early late : List (Call ℚ)} (hticks : Ticks start (early ++ late))
    (hloss : ∀ call ∈ early ++ late, call.estimatedLoss = p) :
    d.left (modeAfter config hysteresis first windowSizes start (early ++ late)) ≤
      d.left (modeAfter config hysteresis first windowSizes start early) := by
  obtain ⟨hearly, hlate⟩ := ticks_append hticks
  have hstart := drifting_start d config hysteresis first windowSizes start hgap
  have hmid := (hstart.run hsteady hgap hearly fun call hcall => hloss call (List.mem_append_left _ hcall)).1
  have hle := (hmid.run hsteady hgap hlate fun call hcall => hloss call (List.mem_append_right _ hcall)).2
  rw [modeAfter, modeAfter, Observed.run, List.foldl_append]
  exact hle

theorem modeAfter_eq_goal (d : Drift) (windowSizes : FecMode → Option ℕ) (hsteady : Steady config hysteresis p)
    (hgap : 0 ≤ d.gap p first) {early late : List (Call ℚ)} (hticks : Ticks start (early ++ late))
    (hloss : ∀ call ∈ early ++ late, call.estimatedLoss = p) (hlength : 6 ≤ late.length) (hspaced : Spaced late)
    (hbig : ∀ call ∈ late, 1 / 10 < config.ki * (d.gap p first * asSecs (call.clock.control - start))) :
    modeAfter config hysteresis first windowSizes start (early ++ late) = d.goal := by
  cases late with
  | nil => cases hlength
  | cons call late =>
      rw [List.append_cons] at hticks hloss
      rw [Spaced, List.isChain_cons] at hspaced
      obtain ⟨hfirst, -⟩ := ticks_append hticks
      have hstart := drifting_start d config hysteresis first windowSizes start hgap
      have hmid := (hstart.run hsteady hgap hfirst fun c hc => hloss c (List.mem_append_left _ hc)).1
      rw [endOf_concat] at hmid
      have hle := hmid.run_spaced hsteady hgap hspaced.2 hspaced.1 (fun c hc => hloss c (List.mem_append_right _ hc))
        fun c hc => hbig c (List.mem_cons_of_mem _ hc)
      rw [← d.left_eq_zero_iff, List.append_cons, modeAfter, Observed.run, List.foldl_append]
      have hmax := d.left_le
        ((Observed.start config hysteresis first windowSizes start).run (early ++ [call])).manager.currentMode
      rw [List.length_cons] at hlength
      change d.left (Observed.run _ late).manager.currentMode = 0
      unfold Observed.run at hle hmax ⊢
      omega

/-- On a path with a constant loss the mode moves in one direction only, away from the loss: below the threshold of its
first mode the manager ends with the most redundancy there is, and above it with none. -/
theorem modeAfter_runs_away (config : PidConfig ℚ) (hysteresis : ℚ) (first : FecMode) (windowSizes : FecMode → Option ℕ)
    (start : ℕ) {p : ℚ} (hsteady : Steady config hysteresis p) {early late : List (Call ℚ)}
    (hticks : Ticks start (early ++ late)) (hloss : ∀ call ∈ early ++ late, call.estimatedLoss = p) :
    (p ≤ defaultThresholds first →
      (modeAfter config hysteresis first windowSizes start early).level ≤
        (modeAfter config hysteresis first windowSizes start (early ++ late)).level) ∧
    (defaultThresholds first ≤ p →
      (modeAfter config hysteresis first windowSizes start (early ++ late)).level ≤
        (modeAfter config hysteresis first windowSizes start early).level) ∧
    (Lasting config p first start late →
      (p < defaultThresholds first → modeAfter config hysteresis first windowSizes start (early ++ late) = .extreme) ∧
      (defaultThresholds first < p → modeAfter config hysteresis first windowSizes start (early ++ late) = .zero)) := by
  have hup : Drift.up.gap p first = defaultThresholds first - p := one_mul _
  have hdown : Drift.down.gap p first = -(defaultThresholds first - p) := neg_one_mul _
  refine ⟨fun hle => ?_, fun hle => ?_, fun hlasting => ⟨fun hlt => ?_, fun hlt => ?_⟩⟩
  · have hleft := left_modeAfter_le .up windowSizes hsteady (by rw [hup]; linarith) hticks hloss
    have hlevel : ∀ mode : FecMode, mode.level ≤ 5 := by
      intro mode
      cases mode <;> decide
    have hfirst := hlevel (modeAfter config hysteresis first windowSizes start early)
    change 5 - _ ≤ 5 - _ at hleft
    omega
  · exact left_modeAfter_le .down windowSizes hsteady (by rw [hdown]; linarith) hticks hloss
  · refine modeAfter_eq_goal .up windowSizes hsteady
      (by rw [hup]; linarith) hticks hloss hlasting.length_ge hlasting.spaced
      fun call hcall => ?_
    rw [hup, ← abs_of_pos (sub_pos.mpr hlt)]
    exact hlasting.outside call hcall
  · refine modeAfter_eq_goal .down windowSizes hsteady
      (by rw [hdown]; linarith) hticks hloss hlasting.length_ge hlasting.spaced
      fun call hcall => ?_
    rw [hdown, ← abs_of_neg (sub_neg.mpr hlt)]
    exact hlasting.outside call hcall

def lossless (seconds : List ℕ) : List (Call ℚ) := seconds.map fun t => ⟨0, .at (t * 1000000000)⟩

/-- With the default gains and no loss at all, the default mode is the strongest one after less than half a minute. -/
theorem modeAfter_runs_away_lossless :
    modeAfter ⟨6 / 5, 1 / 2, 1 / 10⟩ (1 / 50) .zero (fun mode => some mode.defaultWindows) 0
      (lossless [1, 2] ++ lossless [21, 22, 23, 24, 25, 26]) = .extreme := by
  have hsteady : Steady ⟨6 / 5, 1 / 2, 1 / 10⟩ (1 / 50) 0 := by
    refine ⟨by norm_num, by norm_num, by norm_num, ?_⟩
    norm_num [defaultThresholds]
  have hticks : Ticks 0 (lossless [1, 2] ++ lossless [21, 22, 23, 24, 25, 26]) := by
    simp [lossless, Ticks, Clock.at]
  have hloss : ∀ call ∈ lossless [1, 2] ++ lossless [21, 22, 23, 24, 25, 26], call.estimatedLoss = 0 := by
    simp [lossless]
  have hlasting : Lasting ⟨6 / 5, 1 / 2, 1 / 10⟩ 0 .zero 0 (lossless [21, 22, 23, 24, 25, 26]) := by
    refine ⟨by decide, by simp [lossless, Spaced, Clock.at, ModeManager.minDwellTime], ?_⟩
    norm_num [lossless, Clock.at, defaultThresholds, asSecs_eq]
  have hbelow : (0 : ℚ) < defaultThresholds .zero := by norm_num [defaultThresholds]
  exact ((modeAfter_runs_away _ _ .zero _ 0 hsteady hticks hloss).2.2 hlasting).1 hbelow

end PidModeManager

end QuicFuscate.Fec
