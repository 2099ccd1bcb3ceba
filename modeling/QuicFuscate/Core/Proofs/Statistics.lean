import QuicFuscate.Core.Statistics
import QuicFuscate.Fec.Proofs.LossEstimate

/-!
# What the loss estimator counts

A report of the cumulative counters is taken for new outcomes, so every call counts all packets
since the beginning once more.
-/

namespace QuicFuscate.Core

open Framework Fec Stealth

/-! ## Runs -/

/-- Counters that only grow, with no more packets lost than sent. -/
structure Cumulative (updates : List StateUpdate) : Prop where
  lost_le : ∀ u ∈ updates, u.stats.lost ≤ u.stats.sent
  growing : updates.Pairwise fun u v => u.stats.sent ≤ v.stats.sent ∧ u.stats.lost ≤ v.stats.lost

def fedOutcomes (updates : List StateUpdate) : List Bool :=
  updates.flatMap fun u => LossEstimator.outcomes u.stats.lost u.stats.sent

def finalCount (count : LibraryStats → ℕ) (updates : List StateUpdate) : ℕ :=
  (updates.getLast?.map fun u => count u.stats).getD 0

/-- Every lost and every received packet is fed once. -/
structure CountedOnce (updates : List StateUpdate) : Prop where
  lost_eq : (fedOutcomes updates).count true = finalCount LibraryStats.lost updates
  received_eq : (fedOutcomes updates).count false =
    finalCount LibraryStats.sent updates - finalCount LibraryStats.lost updates

private theorem fedOutcomes_cons (u : StateUpdate) (updates : List StateUpdate) :
    fedOutcomes (u :: updates) = LossEstimator.outcomes u.stats.lost u.stats.sent ++ fedOutcomes updates :=
  List.flatMap_cons

private theorem fedOutcomes_concat (before : List StateUpdate) (last : StateUpdate) :
    fedOutcomes (before ++ [last]) =
      fedOutcomes before ++ LossEstimator.outcomes last.stats.lost last.stats.sent := by
  simp [fedOutcomes]

private theorem finalCount_concat (count : LibraryStats → ℕ) (before : List StateUpdate) (last : StateUpdate) :
    finalCount count (before ++ [last]) = count last.stats := by
  simp [finalCount]

/-- Nothing has been fed exactly when nothing had been sent at any report. -/
private theorem fedOutcomes_eq_nil_iff {updates : List StateUpdate}
    (h : ∀ u ∈ updates, u.stats.lost ≤ u.stats.sent) :
    fedOutcomes updates = [] ↔ ∀ u ∈ updates, u.stats.sent = 0 := by
  rw [fedOutcomes, List.flatMap_eq_nil_iff]
  apply forall_congr'
  intro u
  apply forall_congr'
  intro hu
  have hle := h u hu
  rw [LossEstimator.outcomes, List.append_eq_nil_iff, List.replicate_eq_nil_iff, List.replicate_eq_nil_iff]
  omega

/-- The last report alone has the right counts, so that everything fed before is counted again. -/
private theorem countedOnce_iff {updates : List StateUpdate} (h : ∀ u ∈ updates, u.stats.lost ≤ u.stats.sent) :
    CountedOnce updates ↔ ∀ u ∈ updates.dropLast, u.stats.sent = 0 := by
  rcases List.eq_nil_or_concat updates with rfl | ⟨before, last, rfl⟩
  · exact ⟨fun _ u hu => absurd hu List.not_mem_nil, fun _ => ⟨rfl, rfl⟩⟩
  · rw [List.concat_eq_append] at h ⊢
    rw [List.dropLast_concat, ← fedOutcomes_eq_nil_iff fun u hu => h u (List.mem_append_left _ hu)]
    constructor
    · intro hcounted
      have hlost := hcounted.lost_eq
      have hreceived := hcounted.received_eq
      simp only [fedOutcomes_concat, finalCount_concat, List.count_append, LossEstimator.count_true_outcomes,
        LossEstimator.count_false_outcomes] at hlost hreceived
      have hlen := List.count_true_add_count_false (fedOutcomes before)
      exact List.length_eq_zero_iff.mp (by omega)
    · intro hnil
      constructor
      · rw [fedOutcomes_concat, hnil, finalCount_concat, List.nil_append, LossEstimator.count_true_outcomes]
      · rw [fedOutcomes_concat, hnil, finalCount_concat, finalCount_concat, List.nil_append,
          LossEstimator.count_false_outcomes]

namespace MonitoredConnection

variable {R : Type} [Add R] [Sub R] [Mul R] [Div R] [Neg R] [Max R] [NatCast R] [OfScientific R]
  [LT R] [DecidableLT R] [LE R] [DecidableLE R] [RoundUsize R]

/-- A run of `update_state` calls. -/
def updateAll (c : MonitoredConnection R) (updates : List StateUpdate) : Checked (MonitoredConnection R) :=
  updates.foldlM updateState c

private theorem updateState_eq (c : MonitoredConnection R) {u : StateUpdate} (h : u.stats.lost ≤ u.stats.sent) :
    c.updateState u = .ok (c.adapt (c.estimator.reported u.stats.lost u.stats.sent) u) := by
  rw [updateState, LossEstimator.reportLoss_eq _ h]
  rfl

private theorem updateAll_ok (c : MonitoredConnection R) {updates : List StateUpdate}
    (h : ∀ u ∈ updates, u.stats.lost ≤ u.stats.sent) :
    ∃ c', c.updateAll updates = .ok c' ∧ c'.estimator.burstWindow =
      (fedOutcomes updates).foldl (pushBounded c.estimator.burstCapacity) c.estimator.burstWindow := by
  induction updates generalizing c with
  | nil => exact ⟨c, rfl, rfl⟩
  | cons u updates ih =>
      have hu := updateState_eq c (h u List.mem_cons_self)
      obtain ⟨c', hrun, hwindow⟩ :=
        ih (c.adapt (c.estimator.reported u.stats.lost u.stats.sent) u) fun v hv => h v (List.mem_cons_of_mem _ hv)
      refine ⟨c', ?_, ?_⟩
      · rw [updateAll, List.foldlM_cons, hu, ok_bind]
        exact hrun
      · rw [hwindow, fedOutcomes_cons, List.foldl_append]
        rfl

variable (config : FecConfig R) (stealthManager : StealthManager) (xdpSocket : Bool) (now : ℕ)

/-- Every run over cumulative counters completes and leaves the latest of the fed outcomes in the
burst window; each packet is counted once exactly when nothing had been sent before the last
report. -/
theorem updateAll_countedOnce_iff {updates : List StateUpdate} (h : Cumulative updates) :
    (∃ c, (new config stealthManager xdpSocket now).updateAll updates = .ok c ∧
      (1 ≤ config.burstWindow → c.estimator.burstWindow =
        (fedOutcomes updates).drop ((fedOutcomes updates).length - config.burstWindow))) ∧
    (CountedOnce updates ↔ ∀ u ∈ updates.dropLast, u.stats.sent = 0) := by
  constructor
  · obtain ⟨c, hrun, hwindow⟩ := updateAll_ok (new config stealthManager xdpSocket now) h.lost_le
    refine ⟨c, hrun, ?_⟩
    intro hcapacity
    rw [hwindow]
    exact foldl_pushBounded hcapacity _
  · exact countedOnce_iff h.lost_le

theorem updateAll_countedOnce_first_packets :
    let updates : List StateUpdate := [⟨⟨0, 0, 0⟩, .at 0, false⟩, ⟨⟨10, 1, 20⟩, .at 1000000000, false⟩]
    Cumulative updates ∧ CountedOnce updates ∧ ∃ c : MonitoredConnection ℚ,
      (new .default ⟨false, none⟩ false 0).updateAll updates = .ok c ∧ c.estimator.burstWindow.length = 10 := by
  intro updates
  have hcumulative : Cumulative updates := ⟨by decide, by decide⟩
  obtain ⟨⟨c, hrun, hwindow⟩, hiff⟩ :=
    updateAll_countedOnce_iff (R := ℚ) .default ⟨false, none⟩ false 0 hcumulative
  refine ⟨hcumulative, hiff.mpr (by decide), c, hrun, ?_⟩
  rw [hwindow (by decide)]
  decide

/-- Two reports between which nothing is sent: ten packets, one of them lost, give twenty outcomes,
two of them lost. -/
theorem updateAll_counts_twice :
    let updates : List StateUpdate := [⟨⟨10, 1, 20⟩, .at 0, false⟩, ⟨⟨10, 1, 20⟩, .at 1000000000, false⟩]
    Cumulative updates ∧ finalCount LibraryStats.sent updates = 10 ∧
      (fedOutcomes updates).length = 20 ∧ (fedOutcomes updates).count true = 2 ∧ ¬ CountedOnce updates ∧
      ∃ c : MonitoredConnection ℚ, (new .default ⟨false, none⟩ false 0).updateAll updates = .ok c ∧
        c.estimator.burstWindow = fedOutcomes updates := by
  intro updates
  have hlost : (fedOutcomes updates).count true = 2 := by decide
  have hle : ∀ u ∈ updates, u.stats.lost ≤ u.stats.sent := by decide
  refine ⟨⟨hle, by decide⟩, by decide, by decide, hlost, ?_, ?_⟩
  · intro hcounted
    have heq := hcounted.lost_eq
    rw [hlost] at heq
    exact absurd heq (by decide)
  · obtain ⟨c, hrun, hwindow⟩ := updateAll_ok (R := ℚ) (new .default ⟨false, none⟩ false 0) hle
    exact ⟨c, hrun, hwindow.trans (by decide)⟩

end MonitoredConnection

end QuicFuscate.Core
