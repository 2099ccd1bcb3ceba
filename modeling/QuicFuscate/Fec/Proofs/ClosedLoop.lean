import QuicFuscate.Fec.ClosedLoop
import QuicFuscate.Fec.Proofs.Drift
import QuicFuscate.Fec.Proofs.LossEstimate
import QuicFuscate.Fec.Proofs.SendSafety

/-!
# The loop is closed

The codec does not look at the loss except through its mode manager, so that a run of the whole is a
run of the codec on what the estimator and the controller decide.  On a path that loses nothing the
two of them ask for ever more redundancy.
-/

namespace QuicFuscate.Fec

open Framework

/-- One call with its answer, for a codec that is told what to read. -/
def AdaptiveFec.answer (F : Gf16Arith) (env : Platform) (fec : AdaptiveFec) :
    AdaptiveFec.Call → Checked (FecAnswer × AdaptiveFec)
  | .send pkt queue => do
      let (queue, fec) ← fec.onSend F env pkt queue
      return (.queued queue, fec)
  | .receive pkt => do
      let (result, fec) ← fec.onReceive F env pkt
      return (.recovered result, fec)
  | .reportLoss r => return (.reported, fec.reportLoss r)

/-- A call that may not come about, in which case the program aborts. -/
def AdaptiveFec.attempt (F : Gf16Arith) (env : Platform) (fec : AdaptiveFec) (call : Checked AdaptiveFec.Call) :
    Checked (FecAnswer × AdaptiveFec) := do
  fec.answer F env (← call)

theorem AdaptiveFec.goOver_modeMgr (fec : AdaptiveFec) (prev : Option (FecMode × ℕ)) (mgr : ModeManager) :
    (fec.goOver prev mgr).modeMgr = mgr := by
  cases prev with
  | none => rfl
  | some p => rfl

theorem AdaptiveFec.onSend_modeMgr {F : Gf16Arith} {env : Platform} {fec fec' : AdaptiveFec} {pkt : Packet}
    {queue queue' : List Packet} (h : fec.onSend F env pkt queue = .ok (queue', fec')) :
    fec'.modeMgr = fec.modeMgr := by
  obtain ⟨clone, rfl⟩ := AdaptiveFec.onSend_state h
  rw [AdaptiveFec.countDown_modeMgr]

namespace ControlledFec

theorem manager_eq {R : Type} {c : ControlledFec R} {m : PidModeManager R} (hmgr : c.codec.modeMgr = m.toModeManager)
    (hpid : c.pid = m.pid) (hthresholds : c.modeThresholds = m.modeThresholds)
    (hhysteresis : c.hysteresis = m.hysteresis) :
    c.manager = m := by
  rw [manager, hmgr, hpid, hthresholds, hhysteresis]

section Refinement

variable {R : Type} [Add R] [Sub R] [Mul R] [Div R] [Neg R] [NatCast R] [OfScientific R]
  [LT R] [DecidableLT R] [LE R] [DecidableLE R] [RoundUsize R]

theorem update_config (m : PidModeManager R) (p : R) (clock : Clock) :
    (m.update p clock).2.modeThresholds = m.modeThresholds ∧ (m.update p clock).2.hysteresis = m.hysteresis := by
  unfold PidModeManager.update
  split
  · exact ⟨rfl, rfl⟩
  · split
    · exact ⟨rfl, rfl⟩
    · dsimp only
      split <;> exact ⟨rfl, rfl⟩

private theorem goOver_update (c : ControlledFec R) (p : R) (clock : Clock) :
    c.codec.goOver (c.manager.update p clock).1 (c.manager.update p clock).2.toModeManager =
      c.codec.reportLoss (c.manager.controlled p clock) := by
  obtain ⟨hprev, hmgr⟩ := c.manager.update_reading p clock
  rw [hprev, hmgr]
  rfl

variable [Max R]

/-- The calls of the codec, with what the estimator and the controller make of the reports.  Nothing
comes after a report of more losses than packets. -/
def decided : PidModeManager R → LossEstimator R → List FecCall → List (Checked AdaptiveFec.Call)
  | _, _, [] => []
  | m, e, .send pkt queue :: calls => .ok (.send pkt queue) :: decided m e calls
  | m, e, .receive pkt :: calls => .ok (.receive pkt) :: decided m e calls
  | m, e, .reportLoss lost total clock :: calls =>
      match e.reportLoss lost total with
      | .error panic => [.error panic]
      | .ok e =>
          .ok (.reportLoss (m.controlled e.getEstimatedLoss clock)) ::
            decided (m.update e.getEstimatedLoss clock).2 e calls

theorem reportLoss_ok (c : ControlledFec R) {lost total : ℕ} {e : LossEstimator R}
    (h : c.estimator.reportLoss lost total = .ok e) (clock : Clock) :
    ∃ next, c.reportLoss lost total clock = .ok next ∧
      next.codec = c.codec.goOver (c.manager.update e.getEstimatedLoss clock).1
        (c.manager.update e.getEstimatedLoss clock).2.toModeManager ∧
      next.estimator = e ∧ next.manager = (c.manager.update e.getEstimatedLoss clock).2 := by
  obtain ⟨hthresholds, hhysteresis⟩ := update_config c.manager e.getEstimatedLoss clock
  rw [reportLoss, h, ok_bind]
  exact ⟨_, rfl, rfl, rfl, manager_eq (AdaptiveFec.goOver_modeMgr _ _ _) rfl hthresholds.symm hhysteresis.symm⟩

private theorem run_step {F : Gf16Arith} {env : Platform} {c next : ControlledFec R} {call : FecCall}
    {call' : AdaptiveFec.Call} {out : FecAnswer} {calls : List FecCall} {calls' : List (Checked AdaptiveFec.Call)}
    (hwhole : c.answer F env call = .ok (out, next))
    (hcodec : c.codec.attempt F env (.ok call') = .ok (out, next.codec))
    (hrest : (runAll (answer F env) next calls).map (fun r => (r.1, r.2.codec)) =
      runAll (AdaptiveFec.attempt F env) next.codec calls') :
    (runAll (answer F env) c (call :: calls)).map (fun r => (r.1, r.2.codec)) =
      runAll (AdaptiveFec.attempt F env) c.codec (.ok call' :: calls') := by
  rw [runAll, runAll, hwhole, hcodec]
  simp only [ok_bind, ← hrest]
  cases runAll (answer F env) next calls with
  | error e => rfl
  | ok r => rfl

/-- A call that does not touch the mode manager leaves the decisions of the later reports as they were. -/
private theorem run_codec {F : Gf16Arith} {env : Platform} {c : ControlledFec R} {call : FecCall}
    {call' : AdaptiveFec.Call} {calls : List FecCall}
    (hanswer : c.answer F env call = (c.codec.answer F env call').map fun r => (r.1, { c with codec := r.2 }))
    (hkeeps : ∀ out fec, c.codec.answer F env call' = .ok (out, fec) → fec.modeMgr = c.codec.modeMgr)
    (ih : ∀ c : ControlledFec R, (runAll (answer F env) c calls).map (fun r => (r.1, r.2.codec)) =
      runAll (AdaptiveFec.attempt F env) c.codec (decided c.manager c.estimator calls)) :
    (runAll (answer F env) c (call :: calls)).map (fun r => (r.1, r.2.codec)) =
      runAll (AdaptiveFec.attempt F env) c.codec (.ok call' :: decided c.manager c.estimator calls) := by
  cases hcodec : c.codec.answer F env call' with
  | error e =>
      rw [runAll, runAll, hanswer, AdaptiveFec.attempt, ok_bind, hcodec]
      rfl
  | ok r =>
      have hmanager : ({ c with codec := r.2 } : ControlledFec R).manager = c.manager :=
        manager_eq (hkeeps r.1 r.2 hcodec) rfl rfl rfl
      have hrest := ih { c with codec := r.2 }
      rw [hmanager] at hrest
      rw [hcodec] at hanswer
      exact run_step hanswer hcodec hrest

/-- A run of the whole codec is a run of the codec alone, on the calls that the estimator and the controller decide: it
answers the same and aborts with it. -/
theorem run_eq_decided (F : Gf16Arith) (env : Platform) (c : ControlledFec R) (calls : List FecCall) :
    (runAll (answer F env) c calls).map (fun r => (r.1, r.2.codec)) =
      runAll (AdaptiveFec.attempt F env) c.codec (decided c.manager c.estimator calls) := by
  induction calls generalizing c with
  | nil => rfl
  | cons call calls ih =>
      cases call with
      | send pkt queue =>
          refine run_codec ?_ (fun out fec h => ?_) ih
          · rw [answer, AdaptiveFec.answer]
            cases c.codec.onSend F env pkt queue <;> rfl
          · rw [AdaptiveFec.answer, bind_eq_ok] at h
            obtain ⟨sent, hsend, h⟩ := h
            cases h
            exact AdaptiveFec.onSend_modeMgr hsend
      | receive pkt =>
          refine run_codec ?_ (fun out fec h => ?_) ih
          · rw [answer, AdaptiveFec.answer]
            cases c.codec.onReceive F env pkt <;> rfl
          · rw [AdaptiveFec.answer, bind_eq_ok] at h
            obtain ⟨received, hreceive, h⟩ := h
            cases h
            exact (AdaptiveFec.onReceive_keeps hreceive).1
      | reportLoss lost total clock =>
          rw [decided]
          cases hestimator : c.estimator.reportLoss lost total with
          | error e =>
              dsimp only
              rw [runAll, runAll, answer, reportLoss, hestimator]
              rfl
          | ok e =>
              obtain ⟨next, hreport, hcodec, hestimator', hmanager⟩ := c.reportLoss_ok hestimator clock
              have hrest := ih next
              rw [hmanager, hestimator'] at hrest
              have hwhole : c.answer F env (.reportLoss lost total clock) = .ok (.reported, next) := by
                rw [answer, hreport]
                rfl
              refine run_step hwhole ?_ hrest
              rw [AdaptiveFec.attempt, ok_bind, AdaptiveFec.answer, hcodec, goOver_update]
              rfl

end Refinement

end ControlledFec

/-! ## Without loss -/

namespace LossEstimator

/-- An estimator that has not seen a loss. -/
structure Quiet (e : LossEstimator ℚ) : Prop where
  ema_eq : e.emaLossRate = 0
  burst_false : ∀ b ∈ e.burstWindow, b = false
  kalman_eq : ∀ f ∈ e.kalman, f.estimate = 0

private theorem quiet_ofConfig (config : FecConfig ℚ) : Quiet (ofConfig config) where
  ema_eq := by norm_num [ofConfig, new]
  burst_false := by simp [ofConfig, new]
  kalman_eq := by
    intro f hf
    rw [ofConfig, new] at hf
    dsimp only at hf
    split at hf
    · rw [← Option.some.inj hf]
      norm_num [KalmanFilter.new]
    · cases hf

variable {e : LossEstimator ℚ}

theorem Quiet.filtered (h : Quiet e) (total : ℕ) :
    (e.filtered 0 total).1 = 0 ∧ ∀ f ∈ (e.filtered 0 total).2, f.estimate = 0 := by
  have hrate : (if total > 0 then ((0 : ℕ) : ℚ) / (total : ℚ) else 0.0) = 0 := by
    split <;> norm_num
  unfold LossEstimator.filtered
  dsimp only
  rw [hrate]
  cases hk : e.kalman with
  | none => exact ⟨rfl, by simp⟩
  | some f =>
      have hzero : (f.update 0).1 = 0 := by
        simp [KalmanFilter.update, h.kalman_eq f (by rw [hk]; rfl)]
      refine ⟨hzero, ?_⟩
      intro g hg
      rw [← Option.some.inj hg]
      exact hzero

theorem Quiet.reported (h : Quiet e) (total : ℕ) : Quiet (e.reported 0 total) where
  ema_eq := by
    rw [LossEstimator.reported]
    simp [(h.filtered total).1, h.ema_eq]
  burst_false := by
    intro b hb
    rcases mem_foldl_pushBounded hb with hold | hnew
    · exact h.burst_false b hold
    · simp only [outcomes, List.replicate_zero, List.nil_append] at hnew
      exact List.eq_of_mem_replicate hnew
  kalman_eq := (h.filtered total).2

theorem Quiet.getEstimatedLoss (h : Quiet e) : e.getEstimatedLoss = 0 := by
  have hcount : e.burstWindow.count true = 0 := by
    rw [List.count_eq_zero]
    intro htrue
    cases h.burst_false true htrue
  rw [getEstimatedLoss_eq, burstFraction, hcount, h.ema_eq]
  simp

end LossEstimator

namespace PidModeManager

variable {d : Drift} {config : PidConfig ℚ} {hysteresis p : ℚ} {first : FecMode} {start now : ℕ} {m : PidModeManager ℚ}
  {clock : Clock} {s : Observed ℚ} {calls : List (Call ℚ)}

private theorem update_admits_of_dwell (hem : m.isEmergency p = false)
    (hdwell : ModeManager.minDwellTime ≤ clock.check - m.lastModeChange) :
    (m.update p clock).2.currentMode.Admits (m.update p clock).2.currentWindow := by
  rw [update_controlled hem hdwell]
  exact FecMode.admits_clamp _ _

theorem Drifting.admits_run (h : Drifting d config hysteresis p first start now s.manager)
    (hsteady : Steady config hysteresis p) (hgap : 0 ≤ d.gap p first) (hticks : Ticks now calls)
    (hloss : ∀ call ∈ calls, call.estimatedLoss = p)
    (hadmits : s.manager.currentMode.Admits s.manager.currentWindow) :
    (s.run calls).manager.currentMode.Admits (s.run calls).manager.currentWindow := by
  induction calls generalizing s now with
  | nil => exact hadmits
  | cons call calls ih =>
      have hp : call.estimatedLoss = p := hloss call List.mem_cons_self
      obtain ⟨hnext, -, -⟩ := h.step hsteady hgap hticks.1
      have hmanager : (s.step call).manager = (s.manager.update p call.clock).2 := by rw [Observed.step, hp]
      rw [← hmanager] at hnext
      refine ih hnext hticks.2 (fun c hc => hloss c (List.mem_cons_of_mem _ hc)) ?_
      rw [hmanager]
      have hem := h.isEmergency hsteady
      by_cases hdwell : call.clock.check - s.manager.lastModeChange < ModeManager.minDwellTime
      · rw [update_early hem hdwell]
        exact hadmits
      · exact update_admits_of_dwell hem (Nat.le_of_not_lt hdwell)

theorem Observed.run_append (s : Observed ℚ) (calls calls' : List (Call ℚ)) :
    s.run (calls ++ calls') = (s.run calls).run calls' :=
  List.foldl_append

theorem Drifting.stays (h : Drifting d config hysteresis p first start now s.manager)
    (hsteady : Steady config hysteresis p)
    (hgap : 0 ≤ d.gap p first) (hticks : Ticks now calls) (hloss : ∀ call ∈ calls, call.estimatedLoss = p)
    (hgoal : s.manager.currentMode = d.goal) : (s.run calls).manager.currentMode = d.goal := by
  have hleft := (h.run hsteady hgap hticks hloss).2
  rw [(d.left_eq_zero_iff _).mpr hgoal] at hleft
  exact (d.left_eq_zero_iff _).mp (Nat.le_zero.mp hleft)

theorem Drifting.admits_second (h : Drifting d config hysteresis p first start now s.manager)
    (hsteady : Steady config hysteresis p) (hgap : 0 ≤ d.gap p first) {call call' : Call ℚ}
    (hticks : now ≤ call.clock.check) (hspaced : call.clock.change + ModeManager.minDwellTime ≤ call'.clock.check)
    (hloss : call.estimatedLoss = p) (hloss' : call'.estimatedLoss = p) :
    (s.run [call, call']).manager.currentMode.Admits (s.run [call, call']).manager.currentWindow := by
  obtain ⟨hnext, -, -⟩ := h.step hsteady hgap hticks
  have hmanager : (s.step call).manager = (s.manager.update p call.clock).2 := by rw [Observed.step, hloss]
  rw [← hmanager] at hnext
  have hmanager' : (s.run [call, call']).manager = ((s.step call).manager.update p call'.clock).2 := by
    show ((s.step call).step call').manager = _
    rw [Observed.step, hloss']
  have hchange := hnext.change_le
  rw [hmanager']
  exact update_admits_of_dwell (hnext.isEmergency hsteady) (by omega)

private theorem settles (windowSizes : FecMode → Option ℕ) (hsteady : Steady config hysteresis p)
    (hlt : p < defaultThresholds first) {early late rest : List (Call ℚ)} (hticks : Ticks start (early ++ late ++ rest))
    (hloss : ∀ call ∈ early ++ late ++ rest, call.estimatedLoss = p) (hlasting : Lasting config p first start late) :
    let m := ((Observed.start config hysteresis first windowSizes start).run (early ++ late ++ rest)).manager
    m.currentMode = .extreme ∧ m.currentMode.Admits m.currentWindow := by
  have hgap : 0 ≤ Drift.up.gap p first := by
    rw [Drift.gap, Drift.sign, one_mul]
    linarith
  have hstart := drifting_start .up config hysteresis first windowSizes start hgap
  have hloss' : ∀ call ∈ early ++ late, call.estimatedLoss = p :=
    fun call hcall => hloss call (List.mem_append_left _ hcall)
  obtain ⟨hticks', hticksRest⟩ := ticks_append hticks
  refine ⟨?_, ?_⟩
  · have hmode := modeAfter_eq_goal .up windowSizes hsteady hgap hticks' hloss' hlasting.length_ge hlasting.spaced
      fun call hcall => by
        rw [Drift.gap, Drift.sign, one_mul, ← abs_of_pos (sub_pos.mpr hlt)]
        exact hlasting.outside call hcall
    have hmid := (hstart.run hsteady hgap hticks' hloss').1
    rw [Observed.run_append]
    exact hmid.stays hsteady hgap hticksRest (fun call hcall => hloss call (List.mem_append_right _ hcall)) hmode
  · have hlength := hlasting.length_ge
    have hspaced := hlasting.spaced
    cases late with
    | nil => exact absurd hlength (by decide)
    | cons call late =>
      cases late with
      | nil => exact absurd hlength (by simp)
      | cons call' more =>
        have hsplit : early ++ call :: call' :: more ++ rest = early ++ ([call, call'] ++ (more ++ rest)) := by simp
        rw [hsplit] at hticks hloss ⊢
        obtain ⟨hticksEarly, hticksLate⟩ := ticks_append hticks
        obtain ⟨-, hticksMore⟩ := ticks_append hticksLate
        have hbefore := (hstart.run hsteady hgap hticksEarly fun c hc => hloss c (List.mem_append_left _ hc)).1
        have hlate : ∀ c ∈ [call, call'] ++ (more ++ rest), c.estimatedLoss = p :=
          fun c hc => hloss c (List.mem_append_right _ hc)
        have hafter := (hbefore.run hsteady hgap (ticks_append hticksLate).1
          fun c hc => hlate c (List.mem_append_left _ hc)).1
        rw [Spaced, List.isChain_cons_cons] at hspaced
        have hadmits := hbefore.admits_second hsteady hgap hticksLate.1 hspaced.1 (hlate call (by simp))
          (hlate call' (by simp))
        rw [Observed.run_append, Observed.run_append]
        exact hafter.admits_run hsteady hgap hticksMore (fun c hc => hlate c (List.mem_append_right _ hc)) hadmits

end PidModeManager

/-! ## The codec follows -/

private theorem roundBits_of_dvd {m : ℕ} (h : 2 ^ (Nat.log2 m - 23) ∣ m) : roundBits m = m := by
  have hpos : 0 < 2 ^ (Nat.log2 m - 23) := Nat.two_pow_pos _
  unfold roundBits
  dsimp only
  rw [Nat.mod_eq_zero_of_dvd h, if_neg (by omega), Nat.div_mul_cancel h]

private theorem paramsFor_extreme {window : ℕ} (h : window ≤ 4096) :
    FecMode.extreme.paramsFor window = (window, 2 * window) := by
  have hlog : ∀ m k : ℕ, m < 2 ^ (k + 1) → Nat.log2 m ≤ k := by
    intro m k hm
    rcases Nat.eq_zero_or_pos m with rfl | hpos
    · exact Nat.zero_le _
    · exact Nat.lt_succ_iff.mp ((Nat.log2_lt hpos.ne').mpr hm)
  have hwindow : roundBits window = window := by
    apply roundBits_of_dvd
    have hle := hlog window 12 (by omega)
    rw [Nat.sub_eq_zero_of_le (by omega), pow_zero]
    exact one_dvd _
  have hproduct : roundBits (window * 16777216) = window * 16777216 := by
    apply roundBits_of_dvd
    have hle := hlog (window * 16777216) 36 (by omega)
    have hpow : 2 ^ (Nat.log2 (window * 16777216) - 23) ∣ 2 ^ 24 := Nat.pow_dvd_pow 2 (by omega)
    exact hpow.trans (Dvd.intro_left window rfl)
  rw [FecMode.paramsFor, hwindow]
  dsimp only [FecMode.overheadRatio]
  rw [hproduct, ceilUsize, Prod.mk.injEq]
  omega

/-- The encoder is the one for the mode and the window. -/
structure AdaptiveFec.Geared (fec : AdaptiveFec) : Prop where
  encoder_k : fec.encoder.k = fec.modeMgr.currentWindow
  encoder_n : fec.encoder.n = (fec.modeMgr.currentMode.paramsFor fec.modeMgr.currentWindow).2
  encoder_field : fec.encoder.isG16 = true ↔ fec.modeMgr.currentMode = .extreme

namespace AdaptiveFec

variable {F : Gf16Arith} {env : Platform} {fec fec' : AdaptiveFec}

theorem geared_new (mode : FecMode) (windowSizes : FecMode → Option ℕ) (now : ℕ) :
    (new mode windowSizes now).Geared where
  encoder_k := by simp [new, FecMode.paramsFor]
  encoder_n := by simp [new]
  encoder_field := by simp [new]

theorem geared_goOver (fec : AdaptiveFec) (prev : Option (FecMode × ℕ)) (mgr : ModeManager) :
    (fec.goOver prev mgr).Geared := by
  cases prev with
  | none => exact ⟨by simp [goOver, FecMode.paramsFor], by simp [goOver], by simp [goOver]⟩
  | some p => exact ⟨by simp [goOver, FecMode.paramsFor], by simp [goOver], by simp [goOver]⟩

theorem Geared.onSend (h : fec.Geared) {pkt : Packet} {queue queue' : List Packet}
    (hsend : fec.onSend F env pkt queue = .ok (queue', fec')) : fec'.Geared := by
  have hmgr := onSend_modeMgr hsend
  obtain ⟨clone, rfl⟩ := onSend_state hsend
  have hencoder : (countDown { fec with
      encoder := fec.encoder.addSourcePacket clone
      transitionEncoder := fec.transitionEncoder.map (·.addSourcePacket clone) }).encoder =
      fec.encoder.addSourcePacket clone := (countDown_encoders _).2.1
  refine ⟨?_, ?_, ?_⟩
  · rw [hencoder, hmgr, EncoderVariant.addSourcePacket_k, h.encoder_k]
  · rw [hencoder, hmgr, EncoderVariant.addSourcePacket_n, h.encoder_n]
  · rw [hencoder, hmgr, EncoderVariant.addSourcePacket_isG16]
    exact h.encoder_field

theorem Geared.onReceive (h : fec.Geared) {pkt : Packet} {result : Except String (List Packet)}
    (hreceive : fec.onReceive F env pkt = .ok (result, fec')) : fec'.Geared := by
  obtain ⟨hmgr, hencoder, -⟩ := onReceive_keeps hreceive
  refine ⟨?_, ?_, ?_⟩
  · rw [hencoder, hmgr, h.encoder_k]
  · rw [hencoder, hmgr, h.encoder_n]
  · rw [hencoder, hmgr]
    exact h.encoder_field

end AdaptiveFec

namespace FecCall

/-- A report says that nothing was lost. -/
def Lossless : FecCall → Prop
  | .reportLoss lost _ _ => lost = 0
  | _ => True

/-- What the mode manager gets of a call if nothing was lost. -/
def quietReport : FecCall → Option (PidModeManager.Call ℚ)
  | .reportLoss _ _ clock => some ⟨0, clock⟩
  | _ => none

end FecCall

namespace ControlledFec

variable {F : Gf16Arith} {env : Platform} {c c' : ControlledFec ℚ} {s : PidModeManager.Observed ℚ}

/-- The whole codec behind an observed mode manager on a path without loss. -/
structure Follows (c : ControlledFec ℚ) (s : PidModeManager.Observed ℚ) : Prop where
  manager_eq : c.manager = s.manager
  quiet : c.estimator.Quiet
  geared : c.codec.Geared

private theorem follows_new (config : FecConfig ℚ) (now : ℕ) :
    (new config now).Follows (.start config.pid config.hysteresis config.initialMode config.windowSizes now) where
  manager_eq := rfl
  quiet := LossEstimator.quiet_ofConfig config
  geared := AdaptiveFec.geared_new _ _ _

theorem Follows.answer (h : c.Follows s) {call : FecCall} (hcall : call.Lossless) {out : FecAnswer}
    (hstep : c.answer F env call = .ok (out, c')) : c'.Follows (s.run call.quietReport.toList) := by
  cases call with
  | send pkt queue =>
      rw [ControlledFec.answer, bind_eq_ok] at hstep
      obtain ⟨⟨queue', codec⟩, hsend, hstep⟩ := hstep
      cases hstep
      have hmanager : ({ c with codec := codec } : ControlledFec ℚ).manager = c.manager :=
        ControlledFec.manager_eq (AdaptiveFec.onSend_modeMgr hsend) rfl rfl rfl
      exact ⟨hmanager.trans h.manager_eq, h.quiet, h.geared.onSend hsend⟩
  | receive pkt =>
      rw [ControlledFec.answer, bind_eq_ok] at hstep
      obtain ⟨⟨result, codec⟩, hreceive, hstep⟩ := hstep
      cases hstep
      have hmanager : ({ c with codec := codec } : ControlledFec ℚ).manager = c.manager :=
        ControlledFec.manager_eq (AdaptiveFec.onReceive_keeps hreceive).1 rfl rfl rfl
      exact ⟨hmanager.trans h.manager_eq, h.quiet, h.geared.onReceive hreceive⟩
  | reportLoss lost total clock =>
      have hlost : lost = 0 := hcall
      subst hlost
      obtain ⟨next, hreport, hcodec, hestimator, hmanager⟩ :=
        c.reportLoss_ok (LossEstimator.reportLoss_eq _ (Nat.zero_le total)) clock
      rw [ControlledFec.answer, hreport, ok_bind] at hstep
      cases hstep
      rw [(h.quiet.reported total).getEstimatedLoss, h.manager_eq] at hmanager
      refine ⟨hmanager, ?_, ?_⟩
      · rw [hestimator]
        exact h.quiet.reported total
      · rw [hcodec]
        exact AdaptiveFec.geared_goOver _ _ _

theorem Follows.run (h : c.Follows s) {calls : List FecCall} (hcalls : ∀ call ∈ calls, call.Lossless)
    {outs : List FecAnswer} (hrun : runAll (ControlledFec.answer F env) c calls = .ok (outs, c')) :
    c'.Follows (s.run (calls.filterMap FecCall.quietReport)) := by
  induction calls generalizing c s outs with
  | nil =>
      cases hrun
      exact h
  | cons call calls ih =>
      obtain ⟨out, next, outs', hfirst, hrest, -⟩ := runAll_cons_eq_ok.mp hrun
      have hnext := h.answer (hcalls call List.mem_cons_self) hfirst
      have hend := ih hnext (fun call' hmem => hcalls call' (List.mem_cons_of_mem call hmem)) hrest
      rw [List.filterMap_cons]
      cases hreport : call.quietReport with
      | none =>
          rw [hreport] at hend
          exact hend
      | some report =>
          rw [hreport] at hend
          exact hend

/-- On a path that loses nothing, whatever is sent and received, the whole codec comes to the last mode and stays there:
it protects windows of at least 1024 packets in the field of 65536 elements, with as many repair packets again. -/
theorem lossless_doubles (F : Gf16Arith) (env : Platform) (config : FecConfig ℚ) (start : ℕ) {c : ControlledFec ℚ}
    (hsteady : PidModeManager.Steady config.pid config.hysteresis 0) {calls : List FecCall}
    (hcalls : ∀ call ∈ calls, call.Lossless) {early late rest : List (PidModeManager.Call ℚ)}
    (hreports : calls.filterMap FecCall.quietReport = early ++ late ++ rest)
    (hticks : PidModeManager.Ticks start (early ++ late ++ rest))
    (hlasting : PidModeManager.Lasting config.pid 0 config.initialMode start late) {outs : List FecAnswer}
    (hrun : runAll (answer F env) (new config start) calls = .ok (outs, c)) :
    c.codec.modeMgr.currentMode = .extreme ∧ c.codec.encoder.isG16 = true ∧
      1024 ≤ c.codec.encoder.k ∧ c.codec.encoder.k ≤ 4096 ∧ c.codec.encoder.n = 2 * c.codec.encoder.k := by
  have hend := (follows_new config start).run hcalls hrun
  have hloss : ∀ report ∈ early ++ late ++ rest, report.estimatedLoss = 0 := by
    intro report hreport
    rw [← hreports, List.mem_filterMap] at hreport
    obtain ⟨call, -, hcall⟩ := hreport
    cases call with
    | send pkt queue => cases hcall
    | receive pkt => cases hcall
    | reportLoss lost total clock =>
        rw [← Option.some.inj hcall]
  have hbelow : 0 < (PidModeManager.defaultThresholds config.initialMode : ℚ) := by
    cases config.initialMode <;> norm_num [PidModeManager.defaultThresholds]
  obtain ⟨hmode, hadmits⟩ := PidModeManager.settles config.windowSizes hsteady hbelow hticks hloss hlasting
  rw [← hreports, ← hend.manager_eq] at hmode hadmits
  have hmode : c.codec.modeMgr.currentMode = .extreme := hmode
  have hadmits : c.codec.modeMgr.currentMode.Admits c.codec.modeMgr.currentWindow := hadmits
  rw [hmode] at hadmits
  have hk := hend.geared.encoder_k
  have hn := hend.geared.encoder_n
  rw [hmode, paramsFor_extreme hadmits.2] at hn
  refine ⟨hmode, hend.geared.encoder_field.mpr hmode, ?_, ?_, ?_⟩
  · rw [hk]
    exact hadmits.1
  · rw [hk]
    exact hadmits.2
  · rw [hk]
    exact hn

def allArrived (seconds : List ℕ) : List FecCall := seconds.map fun t => .reportLoss 0 10 (.at (t * 1000000000))

private theorem allArrived_completes (c : ControlledFec ℚ) (seconds : List ℕ) :
    ∃ outs c', runAll (answer F env) c (allArrived seconds) = .ok (outs, c') := by
  induction seconds generalizing c with
  | nil => exact ⟨[], c, rfl⟩
  | cons t seconds ih =>
      obtain ⟨next, hreport, -⟩ :=
        c.reportLoss_ok (LossEstimator.reportLoss_eq _ (Nat.zero_le 10)) (.at (t * 1000000000))
      obtain ⟨outs, c', hrest⟩ := ih next
      have hfirst : c.answer F env (.reportLoss 0 10 (.at (t * 1000000000))) = .ok (.reported, next) := by
        rw [answer, hreport]
        rfl
      exact ⟨.reported :: outs, c', runAll_cons hfirst hrest⟩

private def samplePacket : Packet := ⟨0, some [1, 2], 2, true, none, 0⟩

/-- The default configuration doubles its traffic after less than half a minute in which nothing is lost. -/
theorem lossless_doubles_by_default : ∃ outs c,
    runAll (answer gf16Arith ⟨.scalar, 2⟩) (new (FecConfig.default : FecConfig ℚ) 0)
        ([.send samplePacket [], .receive samplePacket] ++ allArrived ([1, 2] ++ [21, 22, 23, 24, 25, 26] ++ [27])) =
          .ok (outs, c) ∧
      c.codec.encoder.n = 2 * c.codec.encoder.k ∧ 1024 ≤ c.codec.encoder.k := by
  obtain ⟨first, next, hfirst⟩ : ∃ outs c, runAll (answer gf16Arith ⟨.scalar, 2⟩)
    (new (FecConfig.default : FecConfig ℚ) 0)
      [.send samplePacket [], .receive samplePacket] = .ok (outs, c) := ⟨_, _, rfl⟩
  obtain ⟨outs, c, hrest⟩ := @allArrived_completes gf16Arith ⟨.scalar, 2⟩ next
    ([1, 2] ++ [21, 22, 23, 24, 25, 26] ++ [27])
  have hrun := runAll_append hfirst hrest
  have hsteady : PidModeManager.Steady (FecConfig.default : FecConfig ℚ).pid
      (FecConfig.default : FecConfig ℚ).hysteresis 0 := by
    refine ⟨?_, ?_, ?_, ?_⟩
    · norm_num [FecConfig.default]
    · norm_num [FecConfig.default]
    · norm_num [FecConfig.default]
    · norm_num [FecConfig.default, PidModeManager.defaultThresholds]
  have hticks : PidModeManager.Ticks 0 (PidModeManager.lossless [1, 2] ++
      PidModeManager.lossless [21, 22, 23, 24, 25, 26] ++ PidModeManager.lossless [27]) := by
    simp [PidModeManager.lossless, PidModeManager.Ticks, Clock.at]
  have hlasting : PidModeManager.Lasting (FecConfig.default : FecConfig ℚ).pid 0 .zero 0
      (PidModeManager.lossless [21, 22, 23, 24, 25, 26]) := by
    refine ⟨by decide, by simp [PidModeManager.lossless, PidModeManager.Spaced, Clock.at, ModeManager.minDwellTime], ?_⟩
    norm_num [PidModeManager.lossless, Clock.at, PidModeManager.defaultThresholds, PidModeManager.asSecs_eq,
      FecConfig.default]
  have hcalls : ∀ call ∈ [.send samplePacket [], .receive samplePacket] ++
      allArrived ([1, 2] ++ [21, 22, 23, 24, 25, 26] ++ [27]), call.Lossless := by
    intro call hcall
    rcases List.mem_append.mp hcall with hother | hreport
    · rw [List.mem_pair] at hother
      rcases hother with rfl | rfl <;> trivial
    · obtain ⟨t, -, rfl⟩ := List.mem_map.mp hreport
      rfl
  obtain ⟨-, -, hk, -, hn⟩ :=
    lossless_doubles gf16Arith ⟨.scalar, 2⟩ FecConfig.default 0 hsteady hcalls rfl hticks hlasting hrun
  exact ⟨first ++ outs, c, hrun, hn, hk⟩

end ControlledFec

end QuicFuscate.Fec
