import QuicFuscate.Core.AppConfig
import QuicFuscate.Fec.Proofs.ClosedLoop

/-!
# Windows from a file

No check looks at the windows that a file gives, and most of them do no harm: the controller brings
a window into the range of its mode before it is used.  A window is used as it stands in two places,
at the start and when the loss is so high that the controller is passed over.
-/

namespace QuicFuscate.Fec

open Framework

/-! ## The table of windows -/

def givenWindow (sections : List ModeSection) (mode : FecMode) : Option ℕ :=
  (sections.reverse.find? fun msec => FecMode.fromStr msec.name = some mode).map ModeSection.w0

private theorem insertWindow_apply (windows : FecMode → Option ℕ) (msec : ModeSection) (mode : FecMode) :
    insertWindow windows msec mode = if FecMode.fromStr msec.name = some mode then some msec.w0 else windows mode := by
  unfold insertWindow
  cases hname : FecMode.fromStr msec.name with
  | none => simp
  | some named =>
      by_cases heq : named = mode
      · subst heq
        simp
      · simp [heq, Function.update_of_ne (Ne.symm heq)]

private theorem foldl_insertWindow (windows : FecMode → Option ℕ) (sections : List ModeSection) (mode : FecMode) :
    sections.foldl insertWindow windows mode = (givenWindow sections mode).or (windows mode) := by
  -- the last entry decides, so the list is taken apart from its end
  induction sections using List.reverseRecOn with
  | nil => rfl
  | append_singleton sections msec ih =>
      rw [List.foldl_append, List.foldl_cons, List.foldl_nil, insertWindow_apply, givenWindow, List.reverse_append,
        List.reverse_singleton, List.singleton_append, List.find?_cons]
      by_cases hname : FecMode.fromStr msec.name = some mode
      · simp [hname]
      · simpa [hname, givenWindow] using ih

private theorem windowFor_fromToml {R : Type} [OfScientific R] (sec : FecSection R) (mode : FecMode) :
    ModeManager.windowFor (FecConfig.fromToml sec).windowSizes mode =
      (givenWindow (sec.modes.getD []) mode).getD mode.defaultWindows := by
  rw [ModeManager.windowFor, FecConfig.fromToml]
  dsimp only
  rw [foldl_insertWindow]
  cases givenWindow (sec.modes.getD []) mode with
  | none => rfl
  | some w0 => rfl

/-! ## Emergencies -/

namespace PidModeManager

variable {R : Type} [Add R] [Sub R] [Mul R] [Div R] [Neg R] [NatCast R] [OfScientific R]
  [LT R] [DecidableLT R] [LE R] [DecidableLE R] [RoundUsize R] {m : PidModeManager R} {p : R} {clock : Clock}

private theorem update_table (m : PidModeManager R) (p : R) (clock : Clock) :
    (m.update p clock).2.windowSizes = m.windowSizes := by
  by_cases hem : m.isEmergency p = true
  · rw [update, if_pos hem]
  · rw [Bool.not_eq_true] at hem
    by_cases hdwell : clock.check - m.lastModeChange < ModeManager.minDwellTime
    · rw [update_early hem hdwell]
    · rw [update_controlled hem (Nat.le_of_not_lt hdwell)]
      exact ModeManager.adjusted_windowSizes _ _

private theorem update_emergency_window (hem : m.isEmergency p = true) (clock : Clock) :
    (m.update p clock).2.currentMode = .extreme ∧
      (m.update p clock).2.currentWindow = ModeManager.windowFor m.windowSizes .extreme := by
  rw [update, if_pos hem]
  exact ⟨rfl, rfl⟩

private theorem update_keeps_range (hrange : m.currentMode.Admits m.currentWindow)
    (hem : m.isEmergency p = true → FecMode.extreme.Admits (ModeManager.windowFor m.windowSizes .extreme))
    (clock : Clock) :
    (m.update p clock).2.currentMode.Admits (m.update p clock).2.currentWindow := by
  cases h : m.isEmergency p with
  | true =>
      obtain ⟨hmode, hwindow⟩ := update_emergency_window h clock
      rw [hmode, hwindow]
      exact hem h
  | false =>
      by_cases hdwell : clock.check - m.lastModeChange < ModeManager.minDwellTime
      · rw [update_early h hdwell]
        exact hrange
      · rw [update_controlled h (Nat.le_of_not_lt hdwell)]
        exact FecMode.admits_clamp _ _

end PidModeManager

/-! ## Runs -/

/-- An estimator never asks for more than all packets, so that a high hysteresis rules an emergency out. -/
theorem PidModeManager.not_isEmergency {m : PidModeManager ℚ} {p : ℚ}
    (hthresholds : m.modeThresholds = defaultThresholds)
    (hhigh : 1 / 2 ≤ m.hysteresis) (hp : p ≤ 1) : m.isEmergency p = false := by
  rw [isEmergency, hthresholds, decide_eq_false_iff_not, not_lt, defaultThresholds]
  linarith

theorem LossEstimator.le_of_reportLoss {R : Type} [Add R] [Sub R] [Mul R] [Div R] [NatCast R] [OfScientific R]
    {e e' : LossEstimator R} {lost total : ℕ} (h : e.reportLoss lost total = .ok e') : lost ≤ total := by
  rw [reportLoss, bind_eq_ok] at h
  obtain ⟨window, -, h⟩ := h
  rw [bind_eq_ok] at h
  obtain ⟨rest, hsub, -⟩ := h
  rw [checkedSub] at hsub
  split at hsub
  · assumption
  · cases hsub

namespace AdaptiveFec

variable {F : Gf16Arith} {env : Platform} {fec fec' : AdaptiveFec}

private theorem onSend_decoder {pkt : Packet} {queue queue' : List Packet}
    (h : fec.onSend F env pkt queue = .ok (queue', fec')) :
    fec'.decoder = fec.decoder := by
  obtain ⟨clone, rfl⟩ := onSend_state h
  unfold countDown
  split
  · dsimp only
    split <;> rfl
  · rfl

private theorem onReceive_decoder_k {pkt : Packet} {result : Except String (List Packet)}
    (h : fec.onReceive F env pkt = .ok (result, fec')) : fec'.decoder.k = fec.decoder.k := by
  obtain ⟨first, decoder, hinto, hcases⟩ := onReceive_cases h
  have hk := (receiveInto_keeps hinto).1
  rcases hcases with ⟨-, rfl⟩ | ⟨recovered, transDec, clonePkt, transDec', -, -, -, -, rfl⟩
  · exact hk
  · exact hk

private theorem goOver_decoder_k (fec : AdaptiveFec) (prev : Option (FecMode × ℕ)) (mgr : ModeManager) :
    (fec.goOver prev mgr).decoder.k = mgr.currentWindow := by
  cases prev with
  | none => simp [goOver, FecMode.paramsFor]
  | some p => simp [goOver, FecMode.paramsFor]

end AdaptiveFec

namespace ControlledFec

/-- The windows that the encoder and the decoder work with are in the range of the mode. -/
def InRange (c : ControlledFec ℚ) : Prop :=
  c.codec.modeMgr.currentMode.Admits c.codec.encoder.k ∧ c.codec.modeMgr.currentMode.Admits c.codec.decoder.k

/-- The codec of a configuration, as long as its windows are in range. -/
structure Ranged (config : FecConfig ℚ) (c : ControlledFec ℚ) : Prop where
  sound : c.estimator.Sound
  geared : c.codec.Geared
  decoder_k : c.codec.decoder.k = c.codec.modeMgr.currentWindow
  admits : c.codec.modeMgr.currentMode.Admits c.codec.modeMgr.currentWindow
  table : c.codec.modeMgr.windowSizes = config.windowSizes
  thresholds : c.modeThresholds = PidModeManager.defaultThresholds
  hysteresis : c.hysteresis = config.hysteresis

variable {F : Gf16Arith} {env : Platform} {config : FecConfig ℚ} {c c' : ControlledFec ℚ}

theorem Ranged.inRange (h : c.Ranged config) : c.InRange := by
  rw [InRange, h.geared.encoder_k, h.decoder_k]
  exact ⟨h.admits, h.admits⟩

private theorem ranged_new (hvalid : config.validate = .ok ())
    (hstart : config.initialMode.Admits (ModeManager.windowFor config.windowSizes config.initialMode)) (now : ℕ) :
    (new config now).Ranged config where
  sound := LossEstimator.sound_ofConfig hvalid
  geared := AdaptiveFec.geared_new _ _ _
  decoder_k := by simp [new, AdaptiveFec.new, FecMode.paramsFor]
  admits := hstart
  table := rfl
  thresholds := rfl
  hysteresis := rfl

/-- Either the window for emergencies is in range, or there are none. -/
def Prepared (config : FecConfig ℚ) : Prop :=
  1 / 2 ≤ config.hysteresis ∨ FecMode.extreme.Admits (ModeManager.windowFor config.windowSizes .extreme)

theorem Ranged.reportLoss (h : c.Ranged config) (hprepared : Prepared config) {lost total : ℕ} {clock : Clock}
    (hreport : c.reportLoss lost total clock = .ok c') : c'.Ranged config := by
  have hle : lost ≤ total := by
    rw [ControlledFec.reportLoss, bind_eq_ok] at hreport
    obtain ⟨estimator, hestimator, -⟩ := hreport
    exact LossEstimator.le_of_reportLoss hestimator
  obtain ⟨next, hnext, hcodec, hestimator, hmanager⟩ := c.reportLoss_ok (LossEstimator.reportLoss_eq _ hle) clock
  obtain rfl := Except.ok.inj (hnext.symm.trans hreport)
  have hsound := h.sound.reported hle
  obtain ⟨hthresholds, hhysteresis⟩ :=
    update_config c.manager (c.estimator.reported lost total).getEstimatedLoss clock
  have hwindow : c.manager.isEmergency (c.estimator.reported lost total).getEstimatedLoss = true →
      FecMode.extreme.Admits (ModeManager.windowFor c.manager.windowSizes .extreme) := by
    intro hem
    rcases hprepared with hhigh | hwindow
    · rw [← h.hysteresis] at hhigh
      rw [PidModeManager.not_isEmergency h.thresholds hhigh hsound.estimate.2] at hem
      cases hem
    · rw [← h.table] at hwindow
      exact hwindow
  have hadmits := PidModeManager.update_keeps_range h.admits hwindow clock
  exact
    { sound := hestimator ▸ hsound
      geared := hcodec ▸ AdaptiveFec.geared_goOver _ _ _
      decoder_k := by rw [hcodec, AdaptiveFec.goOver_decoder_k, AdaptiveFec.goOver_modeMgr]
      admits := by
        rw [hcodec, AdaptiveFec.goOver_modeMgr]
        exact hadmits
      table := by
        rw [hcodec, AdaptiveFec.goOver_modeMgr, PidModeManager.update_table]
        exact h.table
      thresholds := ((congrArg PidModeManager.modeThresholds hmanager).trans hthresholds).trans h.thresholds
      hysteresis := ((congrArg PidModeManager.hysteresis hmanager).trans hhysteresis).trans h.hysteresis }

theorem Ranged.withCodec (h : c.Ranged config) {codec : AdaptiveFec} (hgeared : codec.Geared)
    (hk : codec.decoder.k = c.codec.decoder.k) (hmgr : codec.modeMgr = c.codec.modeMgr) :
    Ranged config { c with codec := codec } :=
  { h with
    geared := hgeared
    decoder_k := by rw [hk, hmgr, h.decoder_k]
    admits := by
      rw [hmgr]
      exact h.admits
    table := by rw [hmgr, h.table] }

theorem Ranged.answer (h : c.Ranged config) (hprepared : Prepared config) {call : FecCall} {out : FecAnswer}
    (hstep : c.answer F env call = .ok (out, c')) : c'.Ranged config := by
  cases call with
  | send pkt queue =>
      rw [ControlledFec.answer, bind_eq_ok] at hstep
      obtain ⟨⟨queue', codec⟩, hsend, hstep⟩ := hstep
      cases hstep
      exact h.withCodec (h.geared.onSend hsend) (congrArg DecoderVariant.k (AdaptiveFec.onSend_decoder hsend))
        (AdaptiveFec.onSend_modeMgr hsend)
  | receive pkt =>
      rw [ControlledFec.answer, bind_eq_ok] at hstep
      obtain ⟨⟨result, codec⟩, hreceive, hstep⟩ := hstep
      cases hstep
      exact h.withCodec (h.geared.onReceive hreceive) (AdaptiveFec.onReceive_decoder_k hreceive)
        (AdaptiveFec.onReceive_keeps hreceive).1
  | reportLoss lost total clock =>
      rw [ControlledFec.answer, bind_eq_ok] at hstep
      obtain ⟨next, hreport, hstep⟩ := hstep
      cases hstep
      exact h.reportLoss hprepared hreport

/-- A report of one packet, which was lost, is an emergency unless the hysteresis is high. -/
private theorem isEmergency_lost (config : FecConfig ℚ) (hlow : config.hysteresis < 1 / 2) (now : ℕ) :
    (new config now).manager.isEmergency ((LossEstimator.ofConfig config).reported 1 1).getEstimatedLoss = true := by
  have hburst : ((LossEstimator.ofConfig config).reported 1 1).burstFraction = 1 := by
    simp [LossEstimator.burstFraction, LossEstimator.reported, LossEstimator.ofConfig, LossEstimator.new,
      LossEstimator.outcomes, pushBounded]
  have hestimate : 1 ≤ ((LossEstimator.ofConfig config).reported 1 1).getEstimatedLoss := by
    rw [LossEstimator.getEstimatedLoss_eq, hburst]
    exact le_max_right _ _
  rw [PidModeManager.isEmergency, decide_eq_true_eq]
  show (0.50 : ℚ) + config.hysteresis < _
  linarith

private theorem inRange_iff (F : Gf16Arith) (env : Platform) (hvalid : config.validate = .ok ()) (start : ℕ) :
    (∀ calls outs c, runAll (ControlledFec.answer F env) (new config start) calls = .ok (outs, c) → c.InRange) ↔
      config.initialMode.Admits (ModeManager.windowFor config.windowSizes config.initialMode) ∧ Prepared config := by
  constructor
  · intro hruns
    have hgeared : (new config start).codec.Geared := AdaptiveFec.geared_new _ _ _
    have hstart := (hruns [] [] (new config start) rfl).1
    rw [hgeared.encoder_k] at hstart
    refine ⟨hstart, ?_⟩
    by_cases hhigh : 1 / 2 ≤ config.hysteresis
    · exact .inl hhigh
    · right
      obtain ⟨next, hreport, hcodec, -, -⟩ :=
        (new config start).reportLoss_ok (LossEstimator.reportLoss_eq _ (le_refl 1)) (.at start)
      have hstep : (new config start).answer F env (.reportLoss 1 1 (.at start)) = .ok (.reported, next) := by
        rw [ControlledFec.answer, hreport]
        rfl
      have hend := (hruns [.reportLoss 1 1 (.at start)] [.reported] next (runAll_cons hstep rfl)).2
      obtain ⟨hmode, hwindow⟩ :=
        PidModeManager.update_emergency_window (isEmergency_lost config (not_le.mp hhigh) start) (.at start)
      rw [hcodec, AdaptiveFec.goOver_modeMgr, AdaptiveFec.goOver_decoder_k] at hend
      exact hwindow ▸ hmode ▸ hend
  · intro h calls outs c hrun
    obtain ⟨hstart, hprepared⟩ := h
    have hranged := runAll_invariant (fun c => c.Ranged config) hrun (ranged_new hvalid hstart start)
      fun _ _ _ _ h hstep => h.answer hprepared hstep
    exact hranged.inRange

end ControlledFec

end QuicFuscate.Fec

namespace QuicFuscate.Core

open Framework Fec

/-! ## From the command line -/

namespace Arguments

def modeSections {R : Type} (args : Arguments R) : List ModeSection :=
  match args.config, args.fecConfig with
  | some (some file), _ => (file.fec.bind FecSection.modes).getD []
  | none, some (some sec) => sec.modes.getD []
  | _, _ => []

private theorem windowFor_settings (args : Arguments ℚ) (mode : FecMode) :
    ModeManager.windowFor args.settings.fec.windowSizes mode =
      (givenWindow args.modeSections mode).getD mode.defaultWindows := by
  rw [settings, loaded, modeSections]
  cases args.config with
  | some file =>
      cases file with
      | some file =>
          cases hfec : file.fec with
          | none =>
              simp only [AppConfig.fromToml, hfec]
              rfl
          | some sec =>
              simp only [AppConfig.fromToml, hfec, Option.map_some, Option.getD_some, Option.bind_some]
              exact windowFor_fromToml sec mode
      | none => rfl
  | none =>
      cases args.fecConfig with
      | some sec =>
          cases sec with
          | some sec => exact windowFor_fromToml sec mode
          | none => rfl
      | none => rfl

private theorem admits_given_iff (args : Arguments ℚ) (mode : FecMode) :
    mode.Admits (ModeManager.windowFor args.settings.fec.windowSizes mode) ↔
      ∀ w0 ∈ givenWindow args.modeSections mode, mode.Admits w0 := by
  rw [windowFor_settings]
  cases givenWindow args.modeSections mode with
  | none => simp [FecMode.admits_defaultWindows]
  | some w0 => simp

/-- Without a warning the checks of the error correction have passed; the mode, which the command line replaces after
them, is not among what they look at. -/
private theorem validate_of_silent (args : Arguments ℚ) (h : args.settings.warning = none) :
    args.settings.fec.validate = .ok () := by
  have hdefault : (FecConfig.default : FecConfig ℚ).validate = .ok () := by
    rw [FecConfig.validate_eq_ok]
    norm_num [FecConfig.default, IsProbability]
  have hpassed : ∀ (words : String) (r : Except String Unit), warningOf words r = none → r = .ok () := by
    intro words r hr
    cases r with
    | ok u => rfl
    | error e => cases hr
  show args.loaded.fec.validate = .ok ()
  have h : args.loaded.warning = none := h
  rw [loaded] at h ⊢
  cases hconfig : args.config with
  | some file =>
      rw [hconfig] at h
      cases file with
      | some file =>
          have hall := hpassed _ _ h
          rw [AppConfig.validate] at hall
          show (AppConfig.fromToml file).fec.validate = .ok ()
          cases hfec : (AppConfig.fromToml file).fec.validate with
          | ok u => rfl
          | error e =>
              rw [hfec] at hall
              cases hall
      | none => exact hdefault
  | none =>
      rw [hconfig] at h
      cases hfec : args.fecConfig with
      | some sec =>
          rw [hfec] at h
          cases sec with
          | some sec => exact hpassed _ _ h
          | none => exact hdefault
      | none => exact hdefault

/-- What a program that started without a warning does with the windows of its file: over all runs
of its codec they are in the range of the mode exactly if the one for the first mode is and, unless
the hysteresis is so high that no loss is an emergency, the one for the last mode.  The windows of
all other modes may be anything. -/
theorem started_inRange_iff (F : Gf16Arith) (env : Platform) (args : Arguments ℚ)
    (hsilent : args.settings.warning = none) (start : ℕ) :
    (∀ calls outs c, runAll (ControlledFec.answer F env) (ControlledFec.new args.settings.fec start) calls =
      .ok (outs, c) →
        c.InRange) ↔
      (∀ w0 ∈ givenWindow args.modeSections args.fecMode, args.fecMode.Admits w0) ∧
        (1 / 2 ≤ args.settings.fec.hysteresis ∨ ∀ w0 ∈ givenWindow args.modeSections .extreme,
          FecMode.extreme.Admits w0) := by
  rw [ControlledFec.inRange_iff F env (args.validate_of_silent hsilent) start, ← args.admits_given_iff .extreme,
    ← args.admits_given_iff args.fecMode]
  exact Iff.rfl

/-- A program in normal mode, with a file of windows for other modes. -/
def oddWindows : Arguments ℚ where
  fecMode := .normal
  stealth := ⟨.chrome, .windows, false, "", false, [], false, false⟩
  poolCapacity := 1024
  poolBlock := 4096
  xdp := false
  config := none
  fecConfig := some (some { lambda := none, burstWindow := none, hysteresis := some (3 / 5), pid := none,
                            kalmanEnabled := none, kalmanQ := none, kalmanR := none,
                            modes := some [⟨"Leicht".toList, 0⟩, ⟨"EXTREME".toList, 7⟩, ⟨"turbo".toList, 1⟩] })

theorem started_inRange_iff_odd_windows : oddWindows.settings.warning = none ∧ ∀ calls outs c,
    runAll (ControlledFec.answer gf16Arith ⟨.scalar, 4096⟩) (ControlledFec.new oddWindows.settings.fec 0) calls =
      .ok (outs, c) → c.InRange := by
  have hsilent : oddWindows.settings.warning = none := by decide +kernel
  have hnone : givenWindow oddWindows.modeSections oddWindows.fecMode = none := by decide +kernel
  have hhigh : 1 / 2 ≤ oddWindows.settings.fec.hysteresis := by
    show (1 / 2 : ℚ) ≤ 3 / 5
    norm_num
  refine ⟨hsilent, ?_⟩
  rw [started_inRange_iff gf16Arith ⟨.scalar, 4096⟩ oddWindows hsilent 0]
  exact ⟨by simp [hnone], .inl hhigh⟩

end Arguments

end QuicFuscate.Core
