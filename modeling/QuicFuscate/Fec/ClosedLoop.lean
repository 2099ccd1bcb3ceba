import QuicFuscate.Fec.Control

/-!
# The whole codec

An adaptive codec together with what `Fec.Adaptive` takes as its readings: the estimator that the loss reports go to,
and the controller of the mode manager.  The numbers are those of `Fec.Control`.
-/

namespace QuicFuscate.Fec

open Framework

structure ControlledFec (R : Type) where
  codec : AdaptiveFec
  estimator : LossEstimator R
  pid : PidController R
  modeThresholds : FecMode → R
  hysteresis : R

inductive FecAnswer
  | queued (queue : List Packet)
  | recovered (result : Except String (List Packet))
  | reported

inductive FecCall
  | send (pkt : Packet) (outgoingQueue : List Packet)
  | receive (pkt : Packet)
  | reportLoss (lost total : ℕ) (clock : Clock)

namespace ControlledFec

variable {R : Type} [Add R] [Sub R] [Mul R] [Div R] [Neg R] [Max R] [NatCast R] [OfScientific R]
  [LT R] [DecidableLT R] [LE R] [DecidableLE R]

def new (config : FecConfig R) (now : ℕ) : ControlledFec R where
  codec := AdaptiveFec.new config.initialMode config.windowSizes now
  estimator := LossEstimator.ofConfig config
  pid := PidController.new config.pid now
  modeThresholds := PidModeManager.defaultThresholds
  hysteresis := config.hysteresis

def manager (c : ControlledFec R) : PidModeManager R where
  toModeManager := c.codec.modeMgr
  pid := c.pid
  modeThresholds := c.modeThresholds
  hysteresis := c.hysteresis

variable [RoundUsize R]

def reportLoss (c : ControlledFec R) (lost total : ℕ) (clock : Clock) : Checked (ControlledFec R) := do
  let estimator ← c.estimator.reportLoss lost total
  let (prev, mgr) := c.manager.update estimator.getEstimatedLoss clock
  return { c with
    codec := c.codec.goOver prev mgr.toModeManager
    estimator := estimator
    pid := mgr.pid }

/-- One call with its answer. -/
def answer (F : Gf16Arith) (env : Platform) (c : ControlledFec R) : FecCall → Checked (FecAnswer × ControlledFec R)
  | .send pkt queue => do
      let (queue, codec) ← c.codec.onSend F env pkt queue
      return (.queued queue, { c with codec := codec })
  | .receive pkt => do
      let (result, codec) ← c.codec.onReceive F env pkt
      return (.recovered result, { c with codec := codec })
  | .reportLoss lost total clock => do
      let c ← c.reportLoss lost total clock
      return (.reported, c)

end ControlledFec

end QuicFuscate.Fec
