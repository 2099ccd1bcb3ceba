import QuicFuscate.Core.Connection
import QuicFuscate.Fec.Proofs.Adaptive
import QuicFuscate.Fec.Proofs.Control

/-!
# Statistics

The QUIC library counts the packets it has sent and lost since the connection began.  `update_state`
copies the counters and reports them to the error correction, whose loss estimator takes a report
for the outcomes since the last one.  Here the connection carries its estimator and its controller,
next to the mode manager that the controller drives.
-/

namespace QuicFuscate.Core

open Framework Fec Stealth

/-- What the QUIC library reports: packets since the beginning, and the round-trip time in
milliseconds. -/
structure LibraryStats where
  sent : ℕ
  lost : ℕ
  rtt : ℕ
  deriving DecidableEq, Repr

structure ConnectionStats (R : Type) where
  rtt : R
  lossRate : R
  packetsSent : ℕ
  packetsLost : ℕ

structure MonitoredConnection (R : Type) where
  base : QuicFuscateConnection
  stats : ConnectionStats R
  estimator : LossEstimator R
  modeMgr : PidModeManager R
  modeMgr_eq : base.fec.modeMgr = modeMgr.toModeManager

/-- What a call of `update_state` gets: the statistics of the library, the clock, and whether there is
an XDP socket after the path events. -/
structure StateUpdate where
  stats : LibraryStats
  clock : Clock
  xdpSocket : Bool

namespace MonitoredConnection

variable {R : Type} [Add R] [Sub R] [Mul R] [Div R] [Neg R] [Max R] [NatCast R] [OfScientific R]
  [LT R] [DecidableLT R] [LE R] [DecidableLE R] [RoundUsize R]

def new (config : FecConfig R) (stealthManager : StealthManager) (xdpSocket : Bool) (now : ℕ) :
    MonitoredConnection R where
  base := .new (AdaptiveFec.new config.initialMode config.windowSizes now) stealthManager xdpSocket
  stats := ⟨0.0, 0.0, 0, 0⟩
  estimator := .ofConfig config
  modeMgr := .new config.pid config.hysteresis config.initialMode config.windowSizes now
  modeMgr_eq := rfl

def copyStats (c : MonitoredConnection R) (stats : LibraryStats) : ConnectionStats R where
  rtt := (stats.rtt : R)
  lossRate := if stats.sent > 0 then (stats.lost : R) / (stats.sent : R) else c.stats.lossRate
  packetsSent := stats.sent
  packetsLost := stats.lost

def adapt (c : MonitoredConnection R) (estimator : LossEstimator R) (u : StateUpdate) : MonitoredConnection R where
  base := c.base.updateState (c.modeMgr.controlled estimator.getEstimatedLoss u.clock) u.xdpSocket
  stats := c.copyStats u.stats
  estimator := estimator
  modeMgr := (c.modeMgr.update estimator.getEstimatedLoss u.clock).2
  modeMgr_eq := by
    rw [(c.modeMgr.update_reading _ u.clock).2, ← c.modeMgr_eq]
    exact AdaptiveFec.reportLoss_modeMgr _ _

def updateState (c : MonitoredConnection R) (u : StateUpdate) : Checked (MonitoredConnection R) := do
  let estimator ← c.estimator.reportLoss u.stats.lost u.stats.sent
  return c.adapt estimator u

end MonitoredConnection

end QuicFuscate.Core
