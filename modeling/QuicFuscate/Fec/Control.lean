import Mathlib.Data.Nat.Cast.Defs
import QuicFuscate.Fec.Adaptive
import QuicFuscate.Framework.BoundedQueue

/-!
# Loss estimate and mode control

The estimator smooths the reported loss and remembers the latest outcomes; the mode manager puts a
controller on the difference to the threshold of its mode.  The program computes in single
precision.  Here the numbers are a type with the operations that the code uses, so that a statement
about all of them covers rounding and a statement about the rationals is about the intended law.
-/

namespace QuicFuscate.Fec

open Framework

/-- `x.round() as usize`. -/
class RoundUsize (R : Type) where
  roundUsize : R → ℕ

/-! ## Loss estimate -/

structure KalmanFilter (R : Type) where
  estimate : R
  errorCov : R
  q : R
  r : R
  deriving DecidableEq

structure LossEstimator (R : Type) where
  emaLossRate : R
  lambda : R
  /-- True for lost, false for received. -/
  burstWindow : List Bool
  burstCapacity : ℕ
  kalman : Option (KalmanFilter R)
  deriving DecidableEq

structure PidConfig (R : Type) where
  kp : R
  ki : R
  kd : R
  deriving DecidableEq

structure PidController (R : Type) where
  config : PidConfig R
  integral : R
  previousError : R
  lastTime : ℕ
  deriving DecidableEq

structure FecConfig (R : Type) where
  lambda : R
  burstWindow : ℕ
  hysteresis : R
  pid : PidConfig R
  initialMode : FecMode
  kalmanEnabled : Bool
  kalmanQ : R
  kalmanR : R
  windowSizes : FecMode → Option ℕ

variable {R : Type} [Add R] [Sub R] [Mul R] [Div R] [Neg R] [Max R] [NatCast R] [OfScientific R]
  [LT R] [DecidableLT R] [LE R] [DecidableLE R]

def FecConfig.default : FecConfig R where
  lambda := 0.1
  burstWindow := 20
  hysteresis := 0.02
  pid := ⟨1.2, 0.5, 0.1⟩
  initialMode := .zero
  kalmanEnabled := false
  kalmanQ := 0.001
  kalmanR := 0.01
  windowSizes := fun mode => some mode.defaultWindows

def FecConfig.validate (config : FecConfig R) : Except String Unit :=
  if ¬ ((0.0 : R) ≤ config.lambda ∧ config.lambda ≤ (1.0 : R)) then
    .error "lambda must be between 0 and 1"
  else if config.burstWindow = 0 then
    .error "burst_window must be > 0"
  else if ¬ ((0.0 : R) ≤ config.hysteresis ∧ config.hysteresis < (1.0 : R)) then
    .error "hysteresis must be between 0 and 1"
  else if config.kalmanEnabled ∧ (config.kalmanQ ≤ (0.0 : R) ∨ config.kalmanR ≤ (0.0 : R)) then
    .error "kalman_q and kalman_r must be positive"
  else .ok ()

namespace KalmanFilter

def new (q r : R) : KalmanFilter R := ⟨0.0, 1.0, q, r⟩

def update (f : KalmanFilter R) (measurement : R) : R × KalmanFilter R :=
  let errorCov := f.errorCov + f.q
  let k := errorCov / (errorCov + f.r)
  let estimate := f.estimate + k * (measurement - f.estimate)
  (estimate, { f with estimate := estimate, errorCov := errorCov * (1.0 - k) })

end KalmanFilter

namespace LossEstimator

def new (lambda : R) (burstCapacity : ℕ) (kalman : Option (KalmanFilter R)) : LossEstimator R :=
  ⟨0.0, lambda, [], burstCapacity, kalman⟩

def ofConfig (config : FecConfig R) : LossEstimator R :=
  new config.lambda config.burstWindow
    (if config.kalmanEnabled then some (KalmanFilter.new config.kalmanQ config.kalmanR) else none)

/-- The loss rate of one report, after the filter if there is one. -/
def filtered (e : LossEstimator R) (lost total : ℕ) : R × Option (KalmanFilter R) :=
  let currentLossRate : R := if total > 0 then (lost : R) / (total : R) else 0.0
  match e.kalman with
  | some kf => ((kf.update currentLossRate).1, some (kf.update currentLossRate).2)
  | none => (currentLossRate, none)

def reportLoss (e : LossEstimator R) (lost total : ℕ) : Checked (LossEstimator R) := do
  let current := e.filtered lost total
  let emaLossRate := e.lambda * current.1 + (1.0 - e.lambda) * e.emaLossRate
  let window ← loopTo lost e.burstWindow fun _ window => return pushBounded e.burstCapacity window true
  let window ← loopTo (← checkedSub total lost) window fun _ window =>
    return pushBounded e.burstCapacity window false
  return { e with emaLossRate := emaLossRate, burstWindow := window, kalman := current.2 }

def getEstimatedLoss (e : LossEstimator R) : R :=
  let burstLoss : R := if e.burstWindow.isEmpty then 0.0
    else (e.burstWindow.count true : R) / (e.burstWindow.length : R)
  max e.emaLossRate burstLoss

end LossEstimator

/-! ## Controller -/

/-- `as_secs_f32` of a duration in nanoseconds. -/
def asSecs (nanos : ℕ) : R :=
  ((nanos / 1000000000 : ℕ) : R) + ((nanos % 1000000000 : ℕ) : R) / ((1000000000 : ℕ) : R)

namespace PidController

def new (config : PidConfig R) (now : ℕ) : PidController R := ⟨config, 0.0, 0.0, now⟩

def update (c : PidController R) (currentValue setpoint : R) (now : ℕ) : R × PidController R :=
  let dt : R := asSecs (now - c.lastTime)
  if dt ≤ 0.0 then (0.0, { c with lastTime := now })
  else
    let error := setpoint - currentValue
    let integral := c.integral + error * dt
    let derivative := (error - c.previousError) / dt
    (c.config.kp * error + c.config.ki * integral + c.config.kd * derivative,
      { c with integral := integral, previousError := error, lastTime := now })

end PidController

/-! ## Mode manager -/

/-- The readings of the clock during a call of `update`: for the dwell time, in the controller, and
after a change. -/
structure Clock where
  check : ℕ
  control : ℕ
  change : ℕ
  mono : check ≤ control ∧ control ≤ change

def Clock.at (now : ℕ) : Clock := ⟨now, now, now, le_rfl, le_rfl⟩

structure PidModeManager (R : Type) extends ModeManager where
  pid : PidController R
  modeThresholds : FecMode → R
  hysteresis : R

def suggestion (output : R) : Suggestion :=
  if output > 0.1 then .more else if output < -0.1 then .less else .keep

namespace PidModeManager

def alphaK : R := 0.5

def defaultThresholds : FecMode → R
  | .zero => 0.01
  | .light => 0.05
  | .normal => 0.15
  | .medium => 0.30
  | .strong => 0.50
  | .extreme => 1.0

def new (pidConfig : PidConfig R) (hysteresis : R) (initialMode : FecMode)
    (windowSizes : FecMode → Option ℕ) (now : ℕ) : PidModeManager R where
  toModeManager := ModeManager.new initialMode windowSizes now
  pid := PidController.new pidConfig now
  modeThresholds := defaultThresholds
  hysteresis := hysteresis

def isEmergency (m : PidModeManager R) (estimatedLoss : R) : Bool :=
  estimatedLoss > m.modeThresholds .strong + m.hysteresis

/-- The controller's answer to an estimate, at the threshold of the current mode. -/
def control (m : PidModeManager R) (estimatedLoss : R) (now : ℕ) : R × PidController R :=
  m.pid.update estimatedLoss (m.modeThresholds m.currentMode) now

variable [RoundUsize R]

/-- What the manager reads off an estimate and a controller output. -/
def reading (m : PidModeManager R) (estimatedLoss output : R) (clock : Clock) : Reading where
  emergency := m.isEmergency estimatedLoss
  output := suggestion output
  scaledWindow := fun mode window =>
    let alpha := 1.0 + alphaK * (estimatedLoss - m.modeThresholds mode)
    RoundUsize.roundUsize ((window : R) * alpha)
  checked := clock.check
  now := clock.change

def controlled (m : PidModeManager R) (estimatedLoss : R) (clock : Clock) : Reading :=
  m.reading estimatedLoss (m.control estimatedLoss clock.control).1 clock

def update (m : PidModeManager R) (estimatedLoss : R) (clock : Clock) :
    Option (FecMode × ℕ) × PidModeManager R :=
  if m.isEmergency estimatedLoss then
    (some (m.currentMode, m.currentWindow),
      { m with
        currentMode := .extreme
        currentWindow := m.initialWindow .extreme
        lastModeChange := clock.change })
  else if clock.check - m.lastModeChange < ModeManager.minDwellTime then (none, m)
  else
    let s := { m with
      toModeManager := m.toModeManager.adjusted (m.controlled estimatedLoss clock)
      pid := (m.control estimatedLoss clock.control).2 }
    if m.currentMode ≠ s.currentMode ∨ m.currentWindow ≠ s.currentWindow then
      (some (m.currentMode, m.currentWindow), s)
    else (none, s)

end PidModeManager

end QuicFuscate.Fec
