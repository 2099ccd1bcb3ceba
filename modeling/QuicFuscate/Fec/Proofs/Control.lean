import Mathlib.Algebra.Order.Round
import Mathlib.Algebra.Order.Field.Rat
import Mathlib.Data.Rat.Floor
import Mathlib.Tactic.Linarith
import QuicFuscate.Fec.Control

/-!
# The mode controller

A call of `update` takes one of three paths.  The emergency path ends in the last mode, the others
move by one level at most, and only after the dwell time.  Over the rationals the output of a
proportional controller has the sign of threshold minus loss, so that it moves away from the loss.
-/

namespace QuicFuscate.Fec

def FecMode.level : FecMode → ℕ
  | .zero => 0
  | .light => 1
  | .normal => 2
  | .medium => 3
  | .strong => 4
  | .extreme => 5

theorem FecMode.level_nextMode (mode : FecMode) :
    mode.nextMode.level = if mode = .extreme then mode.level else mode.level + 1 := by
  cases mode <;> rfl

theorem FecMode.level_prevMode (mode : FecMode) :
    mode.prevMode.level = if mode = .zero then mode.level else mode.level - 1 := by
  cases mode <;> rfl

theorem FecMode.level_pos {mode : FecMode} (h : mode ≠ .zero) : 0 < mode.level := by
  cases mode <;> simp_all [level]

def FecMode.Adjacent (mode mode' : FecMode) : Prop :=
  mode'.level = mode.level + 1 ∨ mode.level = mode'.level + 1

instance (mode mode' : FecMode) : Decidable (mode.Adjacent mode') :=
  inferInstanceAs (Decidable (_ ∨ _))

theorem FecMode.adjacent_nextMode {mode : FecMode} (h : mode.nextMode ≠ mode) : mode.Adjacent mode.nextMode := by
  cases mode <;> simp_all [nextMode, Adjacent, level]

theorem FecMode.adjacent_prevMode {mode : FecMode} (h : mode.prevMode ≠ mode) : mode.Adjacent mode.prevMode := by
  cases mode <;> simp_all [prevMode, Adjacent, level]

theorem ModeManager.adjacent_newMode {m : ModeManager} {r : Reading} (h : m.newMode r ≠ m.currentMode) :
    m.currentMode.Adjacent (m.newMode r) := by
  unfold newMode at h ⊢
  cases hout : r.output with
  | more => simp only [hout] at h; exact FecMode.adjacent_nextMode h
  | less => simp only [hout] at h; exact FecMode.adjacent_prevMode h
  | keep => simp only [hout] at h; exact absurd rfl h

theorem ModeManager.adjusted_currentMode (m : ModeManager) (r : Reading) :
    (m.adjusted r).currentMode = m.newMode r := by
  simp only [adjusted, switched]
  split
  · rfl
  · rename_i hsame
    exact (not_not.mp hsame).symm

theorem ModeManager.adjusted_lastModeChange (m : ModeManager) (r : Reading) :
    (m.adjusted r).lastModeChange = if m.newMode r ≠ m.currentMode then r.now else m.lastModeChange := by
  simp only [adjusted, switched]
  split <;> rfl

namespace PidModeManager

section Paths

variable {R : Type} [Add R] [Sub R] [Mul R] [Div R] [Neg R] [NatCast R] [OfScientific R]
  [LT R] [DecidableLT R] [LE R] [DecidableLE R] [RoundUsize R] {m : PidModeManager R} {p : R} {clock : Clock}

theorem update_emergency (h : m.isEmergency p = true) :
    (m.update p clock).2.currentMode = .extreme ∧ (m.update p clock).2.lastModeChange = clock.change := by
  rw [update, if_pos h]
  exact ⟨rfl, rfl⟩

theorem update_early (h : m.isEmergency p = false)
    (hdwell : clock.check - m.lastModeChange < ModeManager.minDwellTime) : (m.update p clock).2 = m := by
  rw [update, if_neg (by simp [h]), if_pos hdwell]

theorem update_controlled (h : m.isEmergency p = false)
    (hdwell : ModeManager.minDwellTime ≤ clock.check - m.lastModeChange) :
    (m.update p clock).2 = { m with
      toModeManager := m.toModeManager.adjusted (m.controlled p clock)
      pid := (m.control p clock.control).2 } := by
  rw [update, if_neg (by simp [h]), if_neg (Nat.not_lt.mpr hdwell)]
  dsimp only
  split <;> rfl

theorem update_reading (m : PidModeManager R) (p : R) (clock : Clock) :
    (m.update p clock).1 = (m.toModeManager.update (m.controlled p clock)).1 ∧
      (m.update p clock).2.toModeManager = (m.toModeManager.update (m.controlled p clock)).2 := by
  have hemergency : (m.controlled p clock).emergency = m.isEmergency p := rfl
  have hchecked : (m.controlled p clock).checked = clock.check := rfl
  rw [update, ModeManager.update, hemergency, hchecked]
  split
  · exact ⟨rfl, rfl⟩
  · split
    · exact ⟨rfl, rfl⟩
    · dsimp only
      split <;> exact ⟨rfl, rfl⟩

private theorem update_change (h : m.isEmergency p = false)
    (hne : (m.update p clock).2.currentMode ≠ m.currentMode) :
    m.lastModeChange + ModeManager.minDwellTime ≤ clock.check ∧
      m.currentMode.Adjacent (m.update p clock).2.currentMode := by
  by_cases hdwell : clock.check - m.lastModeChange < ModeManager.minDwellTime
  · rw [update_early h hdwell] at hne
    exact absurd rfl hne
  · rw [update_controlled h (Nat.le_of_not_lt hdwell)] at hne ⊢
    simp only [ModeManager.adjusted_currentMode] at hne ⊢
    have hpos : 0 < ModeManager.minDwellTime := by decide
    exact ⟨by omega, ModeManager.adjacent_newMode hne⟩

/-! ## Runs -/

structure Call (R : Type) where
  estimatedLoss : R
  clock : Clock

/-- A manager with the time at which its mode last changed, or at which it was constructed. -/
structure Observed (R : Type) where
  manager : PidModeManager R
  changedAt : ℕ

def Observed.step (s : Observed R) (call : Call R) : Observed R where
  manager := (s.manager.update call.estimatedLoss call.clock).2
  changedAt := if (s.manager.update call.estimatedLoss call.clock).2.currentMode ≠ s.manager.currentMode
    then call.clock.change else s.changedAt

def Observed.run (s : Observed R) (calls : List (Call R)) : Observed R := calls.foldl Observed.step s

/-- The clock does not go back, starting from `now`. -/
def Ticks : ℕ → List (Call R) → Prop
  | _, [] => True
  | now, call :: calls => now ≤ call.clock.check ∧ Ticks call.clock.change calls

/-- The dwell timer was not started before the last change. -/
structure Dwells (now : ℕ) (s : Observed R) : Prop where
  changedAt_le : s.changedAt ≤ s.manager.lastModeChange
  changedAt_le_now : s.changedAt ≤ now

theorem Dwells.step {now : ℕ} {s : Observed R} (h : Dwells now s) (call : Call R) (hnow : now ≤ call.clock.check) :
    Dwells call.clock.change (s.step call) := by
  have hmono := call.clock.mono
  have hold := h.changedAt_le_now
  have hchanged : (s.step call).changedAt ≤ call.clock.change := by
    simp only [Observed.step]
    split
    · exact le_rfl
    · omega
  constructor
  · cases hem : s.manager.isEmergency call.estimatedLoss with
    | true =>
        change _ ≤ (s.manager.update call.estimatedLoss call.clock).2.lastModeChange
        rw [(update_emergency hem).2]
        exact hchanged
    | false =>
        by_cases hdwell : call.clock.check - s.manager.lastModeChange < ModeManager.minDwellTime
        · simp only [Observed.step, update_early hem hdwell]
          simpa using h.changedAt_le
        · simp only [Observed.step, update_controlled hem (Nat.le_of_not_lt hdwell),
            ModeManager.adjusted_currentMode, ModeManager.adjusted_lastModeChange]
          split
          · exact le_rfl
          · exact h.changedAt_le
  · exact hchanged

theorem Dwells.run {now : ℕ} {s : Observed R} (h : Dwells now s) (calls : List (Call R)) (call : Call R)
    (hticks : Ticks now (calls ++ [call])) : (s.run calls).changedAt ≤ (s.run calls).manager.lastModeChange := by
  induction calls generalizing s now with
  | nil => exact h.changedAt_le
  | cons c calls ih => exact ih (h.step c hticks.1) hticks.2

variable (pidConfig : PidConfig R) (hysteresis : R) (initialMode : FecMode)
  (windowSizes : FecMode → Option ℕ) (now : ℕ)

/-- A manager at its construction. -/
def Observed.start : Observed R := ⟨.new pidConfig hysteresis initialMode windowSizes now, now⟩

/-- Outside emergencies the mode stays for the dwell time and moves by one level; an emergency ends
in the last mode. -/
theorem changes_dwell (calls : List (Call R)) (call : Call R) (hticks : Ticks now (calls ++ [call])) :
    let s := (Observed.start pidConfig hysteresis initialMode windowSizes now).run calls
    (s.manager.isEmergency call.estimatedLoss = false →
      (s.step call).manager.currentMode ≠ s.manager.currentMode →
        s.changedAt + ModeManager.minDwellTime ≤ call.clock.check ∧
          s.manager.currentMode.Adjacent (s.step call).manager.currentMode) ∧
    (s.manager.isEmergency call.estimatedLoss = true → (s.step call).manager.currentMode = .extreme) := by
  intro s
  have hstart : Dwells now (Observed.start pidConfig hysteresis initialMode windowSizes now) := ⟨le_rfl, le_rfl⟩
  have hdwells : s.changedAt ≤ s.manager.lastModeChange := hstart.run calls call hticks
  constructor
  · intro hem hne
    have hchange := update_change hem hne
    exact ⟨by omega, hchange.2⟩
  · intro hem
    exact (update_emergency hem).1

end Paths

instance : RoundUsize ℚ where
  roundUsize q := min (round q).toNat (2 ^ 64 - 1)

/-- Without loss the mode moves from normal to strong in two steps, each after its dwell time. -/
theorem changes_dwell_two_steps :
    let call (now : ℕ) : Call ℚ := ⟨0, .at now⟩
    let s := (Observed.start ⟨1, 0, 0⟩ (1 / 50) .normal (fun mode => some mode.defaultWindows) 0).run
      [call 600000000]
    s.changedAt = 600000000 ∧ s.manager.currentMode = .medium ∧
      (s.step (call 1200000000)).manager.currentMode = .strong ∧
      s.changedAt + ModeManager.minDwellTime ≤ 1200000000 ∧
      s.manager.currentMode.Adjacent (s.step (call 1200000000)).manager.currentMode := by
  intro call s
  have hat : s.changedAt = 600000000 := by decide +kernel
  have hmode : s.manager.currentMode = .medium := by decide +kernel
  have hmode' : (s.step (call 1200000000)).manager.currentMode = .strong := by decide +kernel
  have hticks : Ticks 0 ([call 600000000] ++ [call 1200000000]) :=
    ⟨Nat.zero_le _, by decide, trivial⟩
  have hsteady := (changes_dwell ⟨1, 0, 0⟩ (1 / 50) .normal (fun mode => some mode.defaultWindows) 0
    [call 600000000] (call 1200000000) hticks).1
  refine ⟨hat, hmode, hmode', hsteady (by decide +kernel) ?_⟩
  intro hsame
  rw [hmode', hmode] at hsame
  cases hsame

/-! ## Direction -/

theorem asSecs_pos {nanos : ℕ} (h : 0 < nanos) : (0 : ℚ) < asSecs nanos := by
  rw [asSecs]
  by_cases hmod : nanos % 1000000000 = 0
  · have hsecs : (0 : ℚ) < ((nanos / 1000000000 : ℕ) : ℚ) := by
      rw [Nat.cast_pos]
      omega
    rw [hmod]
    simpa using hsecs
  · have hnanos : (0 : ℚ) < ((nanos % 1000000000 : ℕ) : ℚ) := by
      rw [Nat.cast_pos]
      omega
    positivity

private theorem update_proportional {c : PidController ℚ} {now : ℕ} (hki : c.config.ki = 0) (hkd : c.config.kd = 0)
    (hnow : c.lastTime < now) (currentValue setpoint : ℚ) :
    (c.update currentValue setpoint now).1 = c.config.kp * (setpoint - currentValue) := by
  have hdt : ¬ (asSecs (now - c.lastTime) : ℚ) ≤ 0.0 := by
    have helapsed : 0 < now - c.lastTime := by omega
    norm_num
    exact asSecs_pos helapsed
  rw [PidController.update]
  simp only [if_neg hdt, hki, hkd]
  ring

theorem suggestion_cases (output : ℚ) :
    1 / 10 < output ∧ suggestion output = .more ∨ output < -(1 / 10) ∧ suggestion output = .less ∨
      (-(1 / 10) ≤ output ∧ output ≤ 1 / 10) ∧ suggestion output = .keep := by
  have hband : (0.1 : ℚ) = 1 / 10 := by norm_num
  rw [suggestion, hband]
  by_cases hmore : 1 / 10 < output
  · exact .inl ⟨hmore, if_pos hmore⟩
  · rw [if_neg hmore]
    by_cases hless : output < -(1 / 10)
    · exact .inr (.inl ⟨hless, if_pos hless⟩)
    · exact .inr (.inr ⟨⟨not_lt.mp hless, not_lt.mp hmore⟩, if_neg hless⟩)

/-- A positive output raises the mode and a negative one lowers it, outside the dead band and up to the
end of the levels. -/
private theorem newMode_steers_iff {m : ModeManager} {r : Reading} {output : ℚ} (hout : r.output = suggestion output) :
    (output < 0 → m.currentMode.level ≤ (m.newMode r).level) ∧
        (0 < output → (m.newMode r).level ≤ m.currentMode.level) ↔
      (-(1 / 10) ≤ output ∧ output ≤ 1 / 10) ∨ (output < 0 ∧ m.currentMode = .zero) ∨
        (0 < output ∧ m.currentMode = .extreme) := by
  rw [ModeManager.newMode, hout]
  rcases suggestion_cases output with ⟨hmore, hs⟩ | ⟨hless, hs⟩ | ⟨hkeep, hs⟩
  · -- the mode goes up, which is wrong for a loss below the threshold
    have hlevel := m.currentMode.level_nextMode
    rw [hs]
    constructor
    · intro hsteers
      have hle := hsteers.2 (by linarith)
      by_cases hextreme : m.currentMode = .extreme
      · exact .inr (.inr ⟨by linarith, hextreme⟩)
      · rw [if_neg hextreme] at hlevel
        dsimp only at hle
        omega
    · intro hcond
      rcases hcond with hband | ⟨hneg, -⟩ | ⟨-, hextreme⟩
      · linarith [hband.2]
      · linarith
      · rw [hextreme]
        exact ⟨fun _ => le_rfl, fun _ => le_rfl⟩
  · -- the mode goes down, which is wrong for a loss above the threshold
    have hlevel := m.currentMode.level_prevMode
    rw [hs]
    constructor
    · intro hsteers
      have hle := hsteers.1 (by linarith)
      by_cases hzero : m.currentMode = .zero
      · exact .inr (.inl ⟨by linarith, hzero⟩)
      · have hpos := FecMode.level_pos hzero
        rw [if_neg hzero] at hlevel
        dsimp only at hle
        omega
    · intro hcond
      rcases hcond with hband | ⟨-, hzero⟩ | ⟨hpos, -⟩
      · linarith [hband.1]
      · rw [hzero]
        exact ⟨fun _ => le_rfl, fun _ => le_rfl⟩
      · linarith
  · rw [hs]
    exact ⟨fun _ => .inl hkeep, fun _ => ⟨fun _ => le_rfl, fun _ => le_rfl⟩⟩

/-- A state and a call at which a proportional controller decides. -/
structure Decides (m : PidModeManager ℚ) (p : ℚ) (clock : Clock) : Prop where
  kp_pos : 0 < m.pid.config.kp
  ki_eq : m.pid.config.ki = 0
  kd_eq : m.pid.config.kd = 0
  dwell : ModeManager.minDwellTime ≤ clock.check - m.lastModeChange
  elapsed : m.pid.lastTime < clock.control
  loss_le : p ≤ m.modeThresholds .strong + m.hysteresis

/-- More loss than the threshold of the mode does not lower the mode, and less does not raise it. -/
def SteersRight (m : PidModeManager ℚ) (p : ℚ) (clock : Clock) : Prop :=
  (m.modeThresholds m.currentMode < p → m.currentMode.level ≤ (m.update p clock).2.currentMode.level) ∧
  (p < m.modeThresholds m.currentMode → (m.update p clock).2.currentMode.level ≤ m.currentMode.level)

variable {m : PidModeManager ℚ} {p : ℚ} {clock : Clock}

theorem Decides.update_currentMode (h : Decides m p clock) :
    (m.update p clock).2.currentMode = m.toModeManager.newMode (m.controlled p clock) ∧
      (m.controlled p clock).output =
        suggestion (m.pid.config.kp * (m.modeThresholds m.currentMode - p)) := by
  have hem : m.isEmergency p = false := by
    have hle := h.loss_le
    simpa [isEmergency] using hle
  constructor
  · rw [update_controlled hem h.dwell]
    exact ModeManager.adjusted_currentMode _ _
  · simp only [controlled, reading, control]
    rw [update_proportional h.ki_eq h.kd_eq h.elapsed]

/-- The controller moves away from the loss whenever it leaves its dead band and has a level to move
to. -/
theorem steersRight_iff (h : Decides m p clock) : SteersRight m p clock ↔
    |m.pid.config.kp * (m.modeThresholds m.currentMode - p)| ≤ 1 / 10 ∨
      (m.modeThresholds m.currentMode < p ∧ m.currentMode = .zero) ∨
      (p < m.modeThresholds m.currentMode ∧ m.currentMode = .extreme) := by
  obtain ⟨hmode, hout⟩ := h.update_currentMode
  have hkp := h.kp_pos
  have habove : m.modeThresholds m.currentMode < p ↔
      m.pid.config.kp * (m.modeThresholds m.currentMode - p) < 0 := by
    rw [← neg_pos, ← mul_neg, mul_pos_iff_of_pos_left hkp]
    constructor <;> intro <;> linarith
  have hbelow : p < m.modeThresholds m.currentMode ↔
      0 < m.pid.config.kp * (m.modeThresholds m.currentMode - p) := by
    rw [mul_pos_iff_of_pos_left hkp]
    constructor <;> intro <;> linarith
  rw [SteersRight, hmode, habove, hbelow, abs_le]
  exact newMode_steers_iff hout

def proportionalNormal : PidModeManager ℚ :=
  .new ⟨1, 0, 0⟩ (1 / 50) .normal (fun mode => some mode.defaultWindows) 0

private theorem proportionalNormal_decides {p : ℚ} (hp : p ≤ 13 / 25) :
    Decides proportionalNormal p (.at 600000000) where
  kp_pos := one_pos
  ki_eq := rfl
  kd_eq := rfl
  dwell := by decide
  elapsed := by decide
  loss_le := by
    have hsum : proportionalNormal.modeThresholds .strong + proportionalNormal.hysteresis = 13 / 25 := by
      decide +kernel
    rwa [hsum]

/-- A tenth of loss is within the dead band of the threshold of normal mode. -/
theorem steersRight_iff_small_error : Decides proportionalNormal (1 / 10) (.at 600000000) ∧
    SteersRight proportionalNormal (1 / 10) (.at 600000000) := by
  have hdecides : Decides proportionalNormal (1 / 10) (.at 600000000) :=
    proportionalNormal_decides (by norm_num)
  exact ⟨hdecides, (steersRight_iff hdecides).mpr (.inl (by decide +kernel))⟩

/-- At two fifths of loss normal mode, with a threshold of 0.15, goes down to light mode. -/
theorem update_lowers_mode_under_loss : Decides proportionalNormal (2 / 5) (.at 600000000) ∧
    proportionalNormal.modeThresholds .normal < 2 / 5 ∧
    (proportionalNormal.update (2 / 5) (.at 600000000)).2.currentMode = .light ∧
    ¬ SteersRight proportionalNormal (2 / 5) (.at 600000000) := by
  have hthreshold : proportionalNormal.modeThresholds .normal < 2 / 5 := by decide +kernel
  have hmode : (proportionalNormal.update (2 / 5) (.at 600000000)).2.currentMode = .light := by decide +kernel
  have hsteers : ¬ SteersRight proportionalNormal (2 / 5) (.at 600000000) := by
    intro h
    have hle := h.1 hthreshold
    rw [hmode] at hle
    exact absurd hle (by decide)
  exact ⟨proportionalNormal_decides (by norm_num), hthreshold, hmode, hsteers⟩

end PidModeManager

end QuicFuscate.Fec
