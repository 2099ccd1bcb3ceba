import QuicFuscate.Fec.Adaptive

/-!
# Consistency of the adaptive codec

Mode, window, codec geometry and cross-fade state are kept in four places.  `Consistent` says how
they fit together; every call keeps it.
-/

namespace QuicFuscate.Fec

open Framework

/-! ## Codecs keep their geometry -/

namespace EncoderVariant

def isG16 : EncoderVariant → Bool
  | .g8 _ => false
  | .g16 _ => true

def sourceWindow : EncoderVariant → List Packet
  | .g8 e => e.sourceWindow
  | .g16 e => e.sourceWindow

variable (mode : FecMode) (a b : ℕ) (v : EncoderVariant) (pkt : Packet)

@[simp] theorem new_k : (new mode a b).k = a := by
  unfold new
  split <;> rfl

@[simp] theorem new_n : (new mode a b).n = b := by
  unfold new
  split <;> rfl

@[simp] theorem new_isG16 : (new mode a b).isG16 = decide (mode = .extreme) := by
  unfold new
  split <;> simp_all [isG16]

@[simp] theorem new_sourceWindow : (new mode a b).sourceWindow = [] := by
  unfold new
  split <;> rfl

@[simp] theorem addSourcePacket_k : (v.addSourcePacket pkt).k = v.k := by
  cases v <;> rfl

@[simp] theorem addSourcePacket_n : (v.addSourcePacket pkt).n = v.n := by
  cases v <;> rfl

@[simp] theorem addSourcePacket_isG16 : (v.addSourcePacket pkt).isG16 = v.isG16 := by
  cases v <;> rfl

@[simp] theorem addSourcePacket_sourceWindow :
    (v.addSourcePacket pkt).sourceWindow = pushBounded v.k v.sourceWindow pkt := by
  cases v <;> rfl

end EncoderVariant

theorem Packet.cloneForEncoder_cases {env : Platform} {p clone : Packet} (h : p.cloneForEncoder env = .ok clone) :
    clone.isSystematic = p.isSystematic ∧ clone.coefficients.isSome = p.coefficients.isSome ∧
      ∃ data, clone.data = some data ∧ data.length = env.blockSize := by
  unfold Packet.cloneForEncoder at h
  cases hp : p.data with
  | none =>
      rw [hp] at h
      cases hc : p.coefficients with
      | none =>
          rw [hc] at h
          cases h
          exact ⟨rfl, rfl, _, rfl, env.alloc_length⟩
      | some c =>
          rw [hc] at h
          simp only [pure_eq_ok, ok_bind, bind_eq_ok] at h
          obtain ⟨row, -, block, -, h⟩ := h
          cases h
          exact ⟨rfl, rfl, _, rfl, env.alloc_length⟩
  | some d =>
      rw [hp] at h
      simp only [bind_eq_ok] at h
      obtain ⟨front, -, data, hdata, h⟩ := h
      have hlen : data.length = env.blockSize := (copyFront_length hdata).trans env.alloc_length
      cases hc : p.coefficients with
      | none =>
          rw [hc] at h
          cases h
          exact ⟨rfl, rfl, _, rfl, hlen⟩
      | some c =>
          rw [hc] at h
          simp only [pure_eq_ok, ok_bind, bind_eq_ok] at h
          obtain ⟨row, -, block, -, h⟩ := h
          cases h
          exact ⟨rfl, rfl, _, rfl, hlen⟩

def Solved (env : Platform) (p : Packet) : Prop := ∃ i bytes len, solvedPacket env i bytes len = .ok p

namespace Decoder

variable {env : Platform} {d d' : Decoder}

private theorem fill_slots {n : ℕ} {slots slots' : List (Option Packet)}
    {body : ℕ → List (Option Packet) → Checked (List (Option Packet))} (h : loopTo n slots body = .ok slots')
    (hbody : ∀ i u u', body i u = .ok u' → u' = u ∨
      ∃ bytes len p, solvedPacket env i bytes len = .ok p ∧ writeAt u i (some p) = .ok u') :
    AllSome (fun p => some p ∈ slots ∨ Solved env p) slots' := by
  apply loopTo_keeps _ h fun p hp => .inl hp
  intro i u u' hu hstep
  rcases hbody i u u' hstep with rfl | ⟨bytes, len, p, hp, hwrite⟩
  · exact hu
  · apply hu.writeAt _ hwrite
    rintro _ ⟨rfl⟩
    exact .inr ⟨i, bytes, len, hp⟩

private theorem reconstruct_slots {m : CsrMatrix} {k : ℕ} {slots slots' : List (Option Packet)}
    (h : reconstruct env m k slots = .ok slots') : AllSome (fun p => some p ∈ slots ∨ Solved env p) slots' := by
  apply fill_slots h
  intro i u u' hstep
  rw [bind_eq_ok] at hstep
  obtain ⟨slot, -, hstep⟩ := hstep
  cases slot with
  | some p =>
      cases hstep
      exact .inl rfl
  | none =>
      dsimp only at hstep
      rw [bind_eq_ok] at hstep
      obtain ⟨payload, -, hstep⟩ := hstep
      cases payload with
      | none =>
          cases hstep
          exact .inl rfl
      | some data =>
          dsimp only at hstep
          rw [bind_eq_ok] at hstep
          obtain ⟨p, hp, hstep⟩ := hstep
          exact .inr ⟨data, data.length, p, hp, hstep⟩

/-- Decoding keeps the geometry and fills slots with solved packets only. -/
private theorem tryDecode_cases {r : Bool} (h : d.tryDecode env = .ok (r, d')) :
    d'.k = d.k ∧ AllSome (fun p => some p ∈ d.systematicPackets ∨ Solved env p) d'.systematicPackets := by
  unfold tryDecode at h
  split at h
  · cases h
    exact ⟨rfl, fun p hp => .inl hp⟩
  split at h
  · cases h
    exact ⟨rfl, fun p hp => .inl hp⟩
  split at h
  · rw [gaussianElimination, bind_eq_ok] at h
    obtain ⟨⟨rank, m⟩, -, h⟩ := h
    dsimp only at h
    split at h
    · cases h
      exact ⟨rfl, fun p hp => .inl hp⟩
    · rw [bind_eq_ok] at h
      obtain ⟨slots, hslots, h⟩ := h
      cases h
      exact ⟨rfl, reconstruct_slots hslots⟩
  · rw [wiedemannAlgorithm, bind_eq_ok] at h
    obtain ⟨solved, -, h⟩ := h
    split at h
    · cases h
      exact ⟨rfl, fun p hp => .inl hp⟩
    · rename_i result maxLen
      rw [bind_eq_ok] at h
      obtain ⟨slots, hslots, h⟩ := h
      cases h
      refine ⟨rfl, fill_slots hslots ?_⟩
      intro i u u' hstep
      rw [bind_eq_ok] at hstep
      obtain ⟨slot, -, hstep⟩ := hstep
      cases slot with
      | some p =>
          cases hstep
          exact .inl rfl
      | none =>
          simp only [bind_eq_ok] at hstep
          obtain ⟨bytes, -, p, hp, hstep⟩ := hstep
          exact .inr ⟨bytes, maxLen, p, hp, hstep⟩

private theorem addRow_cases {row : List UInt8} {payload : Option (List UInt8)} {r : Except String Bool}
    (h : d.addRow env row payload = .ok (r, d')) :
    d'.k = d.k ∧ AllSome (fun p => some p ∈ d.systematicPackets ∨ Solved env p) d'.systematicPackets := by
  rw [addRow, bind_eq_ok] at h
  obtain ⟨⟨decoded, next⟩, hdec, h⟩ := h
  cases h
  have hcases := tryDecode_cases hdec
  exact hcases

theorem addPacket_cases {pkt : Packet} {r : Except String Bool} (h : d.addPacket env pkt = .ok (r, d')) :
    d'.k = d.k ∧
      AllSome (fun p => some p ∈ d.systematicPackets ∨ p = pkt ∨ Solved env p) d'.systematicPackets := by
  unfold addPacket at h
  split at h
  · cases h
    exact ⟨rfl, fun p hp => .inl hp⟩
  split at h
  · simp only [bind_eq_ok] at h
    obtain ⟨row, -, slot, -, h⟩ := h
    split at h
    · cases h
      exact ⟨rfl, fun p hp => .inl hp⟩
    · rw [bind_eq_ok] at h
      obtain ⟨slots, hwrite, h⟩ := h
      obtain ⟨hk, hslots⟩ := addRow_cases h
      have hput : AllSome (fun p => some p ∈ d.systematicPackets ∨ p = pkt) slots := by
        refine AllSome.writeAt (fun p hp => .inl hp) ?_ hwrite
        rintro _ ⟨rfl⟩
        exact .inr rfl
      refine ⟨hk, fun p hp => ?_⟩
      rcases hslots p hp with hold | hsolved
      · exact (hput p hold).imp id .inl
      · exact .inr (.inr hsolved)
  · split at h
    · rw [bind_eq_ok] at h
      obtain ⟨row, -, h⟩ := h
      obtain ⟨hk, hslots⟩ := addRow_cases h
      exact ⟨hk, fun p hp => (hslots p hp).imp id .inr⟩
    · cases h
      exact ⟨rfl, fun p hp => .inl hp⟩

end Decoder

theorem Decoder16.addPacket_k {F : Gf16Arith} {d d' : Decoder16} {pkt : Packet} {r : Except String Bool}
    (h : d.addPacket F pkt = .ok (r, d')) : d'.k = d.k := by
  unfold Decoder16.addPacket at h
  split at h
  · cases h; rfl
  split at h
  · rw [bind_eq_ok] at h
    obtain ⟨row, -, h⟩ := h
    cases h; rfl
  · split at h
    · simp only [bind_eq_ok] at h
      obtain ⟨row, -, ⟨decoded, d''⟩, hdec, h⟩ := h
      cases h
      unfold Decoder16.tryDecode at hdec
      split at hdec
      · cases hdec; rfl
      · rw [bind_eq_ok] at hdec
        obtain ⟨⟨solved, s⟩, -, hdec⟩ := hdec
        dsimp only at hdec
        split at hdec <;> cases hdec <;> rfl
    · cases h; rfl

namespace DecoderVariant

def isG16 : DecoderVariant → Bool
  | .g8 _ => false
  | .g16 _ => true

@[simp] theorem new_k (mode : FecMode) (a : ℕ) : (new mode a).k = a := by
  unfold new
  split <;> rfl

@[simp] theorem new_isG16 (mode : FecMode) (a : ℕ) : (new mode a).isG16 = decide (mode = .extreme) := by
  unfold new
  split <;> simp_all [isG16]

variable {F : Gf16Arith} {env : Platform} {v v' : DecoderVariant} {pkt : Packet}

theorem addPacket_keeps {r : Except String Bool} (h : v.addPacket F env pkt = .ok (r, v')) :
    v'.k = v.k ∧ v'.isG16 = v.isG16 := by
  cases v with
  | g8 d =>
      rw [addPacket, bind_eq_ok] at h
      obtain ⟨⟨r', d'⟩, hadd, h⟩ := h
      cases h
      exact ⟨(Decoder.addPacket_cases hadd).1, rfl⟩
  | g16 d =>
      rw [addPacket, bind_eq_ok] at h
      obtain ⟨⟨r', d'⟩, hadd, h⟩ := h
      cases h
      exact ⟨Decoder16.addPacket_k hadd, rfl⟩

@[simp] theorem getDecodedPackets_k (v : DecoderVariant) : v.getDecodedPackets.2.k = v.k := by
  cases v <;> rfl

@[simp] theorem getDecodedPackets_isG16 (v : DecoderVariant) : v.getDecodedPackets.2.isG16 = v.isG16 := by
  cases v <;> rfl

end DecoderVariant

theorem receiveInto_keeps {F : Gf16Arith} {env : Platform} {v v' : DecoderVariant} {pkt : Packet}
    {recovered : List Packet} {r : Except String (List Packet)}
    (h : receiveInto F env v pkt recovered = .ok (r, v')) : v'.k = v.k ∧ v'.isG16 = v.isG16 := by
  rw [receiveInto, bind_eq_ok] at h
  obtain ⟨⟨result, v''⟩, hadd, h⟩ := h
  have hkeeps := DecoderVariant.addPacket_keeps hadd
  split at h
  · rename_i decoded d heq
    cases heq
    split at h <;> cases h
    · simpa using hkeeps
    · exact hkeeps
  · rename_i e d heq
    cases heq
    cases h
    exact hkeeps

/-! ## Modes and windows -/

def FecMode.Admits (mode : FecMode) (window : ℕ) : Prop :=
  mode.windowRange.1 ≤ window ∧ window ≤ mode.windowRange.2

theorem FecMode.admits_defaultWindows (mode : FecMode) : mode.Admits mode.defaultWindows := by
  cases mode <;> simp [FecMode.Admits, FecMode.windowRange, FecMode.defaultWindows]

theorem FecMode.admits_clamp (mode : FecMode) (x : ℕ) :
    mode.Admits (ModeManager.clamp x mode.windowRange.1 mode.windowRange.2) := by
  have hle : mode.windowRange.1 ≤ mode.windowRange.2 := by cases mode <;> simp [FecMode.windowRange]
  unfold ModeManager.clamp FecMode.Admits
  split
  · exact ⟨le_rfl, hle⟩
  · split <;> omega

namespace ModeManager

def defaultTable (mode : FecMode) : Option ℕ := some mode.defaultWindows

variable {m : ModeManager} (r : Reading)

@[simp] theorem adjusted_windowSizes (m : ModeManager) : (m.adjusted r).windowSizes = m.windowSizes := by
  simp only [adjusted, switched]
  split <;> rfl

def emergency (m : ModeManager) : ModeManager :=
  { m with currentMode := .extreme, currentWindow := m.initialWindow .extreme, lastModeChange := r.now }

theorem update_cases (m : ModeManager) :
    (r.emergency = true ∧ m.update r = (some (m.currentMode, m.currentWindow), m.emergency r)) ∨
    (r.emergency = false ∧ r.checked - m.lastModeChange < minDwellTime ∧ m.update r = (none, m)) ∨
    (r.emergency = false ∧ ¬ r.checked - m.lastModeChange < minDwellTime ∧
      (m.currentMode ≠ (m.adjusted r).currentMode ∨ m.currentWindow ≠ (m.adjusted r).currentWindow) ∧
      m.update r = (some (m.currentMode, m.currentWindow), m.adjusted r)) ∨
    (r.emergency = false ∧ ¬ r.checked - m.lastModeChange < minDwellTime ∧
      m.update r = (none, m.adjusted r)) := by
  unfold update
  cases hr : r.emergency with
  | true => exact .inl ⟨rfl, rfl⟩
  | false =>
      refine .inr ?_
      rw [if_neg (by simp)]
      by_cases hdwell : r.checked - m.lastModeChange < minDwellTime
      · exact .inl ⟨rfl, hdwell, if_pos hdwell⟩
      · rw [if_neg hdwell]
        by_cases hchange : m.currentMode ≠ (m.adjusted r).currentMode ∨
            m.currentWindow ≠ (m.adjusted r).currentWindow
        · exact .inr (.inl ⟨rfl, hdwell, hchange, if_pos hchange⟩)
        · exact .inr (.inr ⟨rfl, hdwell, if_neg hchange⟩)

theorem update_windowSizes (m : ModeManager) : (m.update r).2.windowSizes = m.windowSizes := by
  obtain ⟨-, h⟩ | ⟨-, -, h⟩ | ⟨-, -, -, h⟩ | ⟨-, -, h⟩ := update_cases r m <;> rw [h]
  · rfl
  · exact adjusted_windowSizes r m
  · exact adjusted_windowSizes r m

theorem update_admits (htable : m.windowSizes = defaultTable) (h : m.currentMode.Admits m.currentWindow) :
    (m.update r).2.currentMode.Admits (m.update r).2.currentWindow := by
  obtain ⟨-, hu⟩ | ⟨-, -, hu⟩ | ⟨-, -, -, hu⟩ | ⟨-, -, hu⟩ := update_cases r m <;> rw [hu]
  · simp only [emergency, initialWindow, htable]
    exact FecMode.admits_defaultWindows .extreme
  · exact h
  · exact FecMode.admits_clamp _ _
  · exact FecMode.admits_clamp _ _

private theorem update_same (hr : r.emergency = false) (hmode : (m.update r).2.currentMode = m.currentMode)
    (hwindow : (m.update r).2.currentWindow = m.currentWindow) : (m.update r).1 = none := by
  obtain ⟨h, -⟩ | ⟨-, -, hu⟩ | ⟨-, -, hchange, hu⟩ | ⟨-, -, hu⟩ := update_cases r m
  · rw [hr] at h
    cases h
  · rw [hu]
  · rw [hu] at hmode hwindow
    rcases hchange with hne | hne
    · exact absurd hmode.symm hne
    · exact absurd hwindow.symm hne
  · rw [hu]

theorem update_emergency (hr : r.emergency = true) :
    (m.update r).1 = some (m.currentMode, m.currentWindow) := by
  rw [update, if_pos hr]

end ModeManager

/-! ## Calls -/

namespace AdaptiveFec

/-- How mode, window, codecs and cross-fade fit together. -/
structure Consistent (fec : AdaptiveFec) : Prop where
  encoder_k : fec.encoder.k = fec.modeMgr.currentWindow
  decoder_k : fec.decoder.k = fec.modeMgr.currentWindow
  encoder_n : fec.encoder.n = (fec.modeMgr.currentMode.paramsFor fec.modeMgr.currentWindow).2
  encoder_field : fec.encoder.isG16 = true ↔ fec.modeMgr.currentMode = .extreme
  decoder_field : fec.decoder.isG16 = true ↔ fec.modeMgr.currentMode = .extreme
  admits : fec.modeMgr.currentMode.Admits fec.modeMgr.currentWindow
  transitionLeft_le : fec.transitionLeft ≤ 32
  fading : 16 < fec.transitionLeft →
    ∃ e d, fec.transitionEncoder = some e ∧ fec.transitionDecoder = some d ∧ e.k = d.k
  faded : fec.transitionLeft ≤ 16 → fec.transitionEncoder = none ∧ fec.transitionDecoder = none

inductive Call
  | send (pkt : Packet) (outgoingQueue : List Packet)
  | receive (pkt : Packet)
  | reportLoss (r : Reading)

def step (F : Gf16Arith) (env : Platform) (fec : AdaptiveFec) : Call → Checked (Unit × AdaptiveFec)
  | .send pkt queue => do
      let (_, fec) ← fec.onSend F env pkt queue
      return ((), fec)
  | .receive pkt => do
      let (_, fec) ← fec.onReceive F env pkt
      return ((), fec)
  | .reportLoss r => return ((), fec.reportLoss r)

variable {F : Gf16Arith} {env : Platform} {fec fec' : AdaptiveFec}

private theorem consistent_new (initialMode : FecMode) (now : ℕ) :
    Consistent (new initialMode ModeManager.defaultTable now) where
  encoder_k := by simp [new, FecMode.paramsFor]
  decoder_k := by simp [new, FecMode.paramsFor]
  encoder_n := by simp [new]
  encoder_field := by simp [new]
  decoder_field := by simp [new]
  admits := FecMode.admits_defaultWindows initialMode
  transitionLeft_le := Nat.zero_le _
  fading := fun h => absurd h (by simp [new])
  faded := fun _ => ⟨rfl, rfl⟩

private theorem addToTransition_eq {pkt clone : Packet} (hclone : pkt.cloneForEncoder env = .ok clone) :
    fec.addToTransition env pkt = .ok (fec.transitionEncoder.map (·.addSourcePacket clone)) := by
  unfold addToTransition
  split
  · rename_i e he
    rw [hclone, he]
    rfl
  · rename_i he
    rw [he]
    rfl

theorem onSend_eq_ok {pkt : Packet} {queue queue' : List Packet} :
    fec.onSend F env pkt queue = .ok (queue', fec') ↔
      ∃ clone, pkt.cloneForEncoder env = .ok clone ∧ ∃ middle,
        fec.emitTransition F env (fec.transitionEncoder.map (·.addSourcePacket clone)) (queue ++ [pkt]) = .ok middle ∧
        emitRepairs F env (fec.encoder.addSourcePacket clone) middle = .ok queue' ∧
        fec' = countDown
          { fec with
            encoder := fec.encoder.addSourcePacket clone
            transitionEncoder := fec.transitionEncoder.map (·.addSourcePacket clone) } := by
  constructor
  · intro h
    simp only [onSend, bind_eq_ok] at h
    obtain ⟨enc, henc, clone, hclone, middle, htransition, q, hemit, h⟩ := h
    rw [addToTransition_eq hclone] at henc
    cases henc
    cases h
    exact ⟨clone, hclone, middle, htransition, hemit, rfl⟩
  · rintro ⟨clone, hclone, middle, htransition, hemit, rfl⟩
    rw [onSend, addToTransition_eq hclone, ok_bind, hclone, ok_bind]
    dsimp only
    rw [htransition, ok_bind, hemit, ok_bind]
    rfl

theorem onSend_state {pkt : Packet} {queue queue' : List Packet}
    (h : fec.onSend F env pkt queue = .ok (queue', fec')) :
    ∃ clone, fec' = countDown
      { fec with
        encoder := fec.encoder.addSourcePacket clone
        transitionEncoder := fec.transitionEncoder.map (·.addSourcePacket clone) } := by
  obtain ⟨clone, -, -, -, -, hstate⟩ := onSend_eq_ok.mp h
  exact ⟨clone, hstate⟩

@[simp] theorem countDown_modeMgr (fec : AdaptiveFec) : (countDown fec).modeMgr = fec.modeMgr := by
  unfold countDown
  split
  · dsimp only
    split <;> rfl
  · rfl

@[simp] theorem countDown_transitionLeft (fec : AdaptiveFec) :
    (countDown fec).transitionLeft = fec.transitionLeft - 1 := by
  unfold countDown
  split
  · dsimp only
    split <;> rfl
  · omega

/-- The previous encoder is dropped by the packet that reaches the half-way point. -/
theorem countDown_transitionEncoder (fec : AdaptiveFec) :
    (countDown fec).transitionEncoder = if fec.transitionLeft = 17 then none else fec.transitionEncoder := by
  have hhalf : ModeManager.crossFadeLen / 2 = 16 := rfl
  unfold countDown
  rw [hhalf]
  split
  · dsimp only
    split
    · rw [if_pos (by omega)]
    · rw [if_neg (by omega)]
  · rw [if_neg (by omega)]

theorem Consistent.countDown (h : Consistent fec) : Consistent (countDown fec) := by
  have hle := h.transitionLeft_le
  unfold AdaptiveFec.countDown
  split
  · dsimp only
    split
    · rename_i hleft
      have hleft : fec.transitionLeft - 1 = 16 := hleft
      exact { h with
        transitionLeft_le := by dsimp only; omega
        fading := fun hlt => absurd hlt (by dsimp only; omega)
        faded := fun _ => ⟨rfl, rfl⟩ }
    · rename_i hleft
      have hleft : fec.transitionLeft - 1 ≠ 16 := hleft
      exact { h with
        transitionLeft_le := by dsimp only; omega
        fading := fun hlt => h.fading (by dsimp only at hlt; omega)
        faded := fun hlt => h.faded (by dsimp only at hlt; omega) }
  · exact h

theorem Consistent.onSend (h : Consistent fec) {pkt : Packet} {queue queue' : List Packet}
    (hsend : fec.onSend F env pkt queue = .ok (queue', fec')) : Consistent fec' := by
  obtain ⟨clone, rfl⟩ := onSend_state hsend
  refine Consistent.countDown { h with
    encoder_k := by simpa using h.encoder_k
    encoder_n := by simpa using h.encoder_n
    encoder_field := by simpa using h.encoder_field
    fading := fun hlt => ?_
    faded := fun hle => ?_ }
  · obtain ⟨e, d, he, hd, hk⟩ := h.fading hlt
    exact ⟨e.addSourcePacket clone, d, by simp [he], hd, by simpa using hk⟩
  · obtain ⟨he, hd⟩ := h.faded hle
    exact ⟨by simp [he], hd⟩

/-- What a call of `on_receive` does: the main decoder gets the packet and, unless it refuses it, the
previous decoder gets the copy that was made for it. -/
theorem onReceive_cases {pkt : Packet} {result : Except String (List Packet)}
    (h : fec.onReceive F env pkt = .ok (result, fec')) :
    ∃ first decoder, receiveInto F env fec.decoder pkt [] = .ok (first, decoder) ∧
      ((result = first ∧ fec' = { fec with decoder := decoder }) ∨
        ∃ recovered transDec clonePkt transDec', first = .ok recovered ∧ fec.transitionDecoder = some transDec ∧
          pkt.cloneForEncoder env = .ok clonePkt ∧
          receiveInto F env transDec clonePkt recovered = .ok (result, transDec') ∧
          fec' = { fec with decoder := decoder, transitionDecoder := some transDec' }) := by
  simp only [onReceive, bind_eq_ok] at h
  obtain ⟨pktClone, hclone, ⟨first, decoder⟩, hinto, h⟩ := h
  refine ⟨first, decoder, hinto, ?_⟩
  cases first with
  | error e =>
      cases h
      exact .inl ⟨rfl, rfl⟩
  | ok recovered =>
      dsimp only [receiveTransition] at h
      split at h
      · rename_i transDec clonePkt htrans
        rw [bind_eq_ok] at h
        obtain ⟨⟨all, transDec'⟩, htransition, h⟩ := h
        cases h
        have hcopy : pkt.cloneForEncoder env = .ok clonePkt := by
          unfold cloneForTransition at hclone
          split at hclone
          · rw [bind_eq_ok] at hclone
            obtain ⟨copy, hcopy, hclone⟩ := hclone
            cases hclone
            exact hcopy
          · cases hclone
        exact .inr ⟨recovered, transDec, clonePkt, transDec', rfl, htrans, hcopy, htransition, rfl⟩
      · cases h
        exact .inl ⟨rfl, rfl⟩

theorem Consistent.onReceive (h : Consistent fec) {pkt : Packet} {result : Except String (List Packet)}
    (hrec : fec.onReceive F env pkt = .ok (result, fec')) : Consistent fec' := by
  obtain ⟨first, decoder, hinto, hcases⟩ := onReceive_cases hrec
  obtain ⟨hk, hfield⟩ := receiveInto_keeps hinto
  have hmain : Consistent { fec with decoder := decoder } :=
    { h with
      decoder_k := hk.trans h.decoder_k
      decoder_field := by
        dsimp only
        rw [hfield]
        exact h.decoder_field }
  rcases hcases with ⟨-, rfl⟩ | ⟨recovered, transDec, clonePkt, transDec', -, htrans, -, htransition, rfl⟩
  · exact hmain
  · have hk' := (receiveInto_keeps htransition).1
    exact { hmain with
      fading := fun hlt => by
        obtain ⟨e, d, he, hd, hed⟩ := h.fading hlt
        rw [htrans] at hd
        cases hd
        exact ⟨e, transDec', he, rfl, hed.trans hk'.symm⟩
      faded := fun hle => by
        have hd := (h.faded hle).2
        rw [htrans] at hd
        cases hd }

theorem onReceive_keeps {pkt : Packet} {result : Except String (List Packet)}
    (hrec : fec.onReceive F env pkt = .ok (result, fec')) :
    fec'.modeMgr = fec.modeMgr ∧ fec'.encoder = fec.encoder ∧ fec'.transitionEncoder = fec.transitionEncoder ∧
      fec'.transitionLeft = fec.transitionLeft ∧
      fec'.transitionDecoder.isSome = fec.transitionDecoder.isSome := by
  obtain ⟨first, decoder, -, hcases⟩ := onReceive_cases hrec
  rcases hcases with ⟨-, rfl⟩ | ⟨recovered, transDec, clonePkt, transDec', -, htrans, -, -, rfl⟩
  · exact ⟨rfl, rfl, rfl, rfl, rfl⟩
  · exact ⟨rfl, rfl, rfl, rfl, (congrArg Option.isSome htrans).symm⟩

theorem reportLoss_eq (fec : AdaptiveFec) (r : Reading) :
    let mgr := (fec.modeMgr.update r).2
    let encoder := EncoderVariant.new mgr.currentMode mgr.currentWindow
      (mgr.currentMode.paramsFor mgr.currentWindow).2
    let decoder := DecoderVariant.new mgr.currentMode mgr.currentWindow
    fec.reportLoss r = match (fec.modeMgr.update r).1 with
      | some _ => ⟨mgr, encoder, decoder, some fec.encoder, some fec.decoder, 32⟩
      | none => { fec with modeMgr := mgr, encoder := encoder, decoder := decoder } :=
  rfl

theorem reportLoss_modeMgr (fec : AdaptiveFec) (r : Reading) :
    (fec.reportLoss r).modeMgr = (fec.modeMgr.update r).2 := by
  rw [reportLoss_eq]
  cases (fec.modeMgr.update r).1 <;> rfl

theorem Consistent.reportLoss (htable : fec.modeMgr.windowSizes = ModeManager.defaultTable) (h : Consistent fec)
    (r : Reading) : Consistent (fec.reportLoss r) := by
  have hadmits := ModeManager.update_admits r htable h.admits
  rw [reportLoss_eq]
  cases (fec.modeMgr.update r).1 with
  | some prev =>
      exact
        { encoder_k := by simp
          decoder_k := by simp
          encoder_n := by simp
          encoder_field := by simp
          decoder_field := by simp
          admits := hadmits
          transitionLeft_le := le_rfl
          fading := fun _ => ⟨_, _, rfl, rfl, h.encoder_k.trans h.decoder_k.symm⟩
          faded := fun hle => absurd hle (by simp) }
  | none =>
      exact { h with
        encoder_k := by simp
        decoder_k := by simp
        encoder_n := by simp
        encoder_field := by simp
        decoder_field := by simp
        admits := hadmits }

private theorem step_windowSizes {c : Call} (h : fec.step F env c = .ok ((), fec')) :
    fec'.modeMgr.windowSizes = fec.modeMgr.windowSizes := by
  cases c with
  | send pkt queue =>
      rw [step, bind_eq_ok] at h
      obtain ⟨⟨queue', next⟩, hsend, h⟩ := h
      cases h
      obtain ⟨clone, rfl⟩ := onSend_state hsend
      rw [countDown_modeMgr]
  | receive pkt =>
      rw [step, bind_eq_ok] at h
      obtain ⟨⟨res, next⟩, hrec, h⟩ := h
      cases h
      rw [(onReceive_keeps hrec).1]
  | reportLoss r =>
      cases h
      rw [reportLoss_modeMgr]
      exact ModeManager.update_windowSizes r fec.modeMgr

theorem Consistent.step {c : Call} (htable : fec.modeMgr.windowSizes = ModeManager.defaultTable)
    (h : Consistent fec) (hstep : fec.step F env c = .ok ((), fec')) : Consistent fec' := by
  cases c with
  | send pkt queue =>
      rw [AdaptiveFec.step, bind_eq_ok] at hstep
      obtain ⟨⟨queue', next⟩, hsend, hstep⟩ := hstep
      cases hstep
      exact h.onSend hsend
  | receive pkt =>
      rw [AdaptiveFec.step, bind_eq_ok] at hstep
      obtain ⟨⟨res, next⟩, hrec, hstep⟩ := hstep
      cases hstep
      exact h.onReceive hrec
  | reportLoss r =>
      cases hstep
      exact h.reportLoss htable r

theorem Consistent.run {calls : List Call} {outs : List Unit}
    (htable : fec.modeMgr.windowSizes = ModeManager.defaultTable) (h : Consistent fec)
    (hrun : runAll (AdaptiveFec.step F env) fec calls = .ok (outs, fec')) : Consistent fec' := by
  -- the window table is part of the invariant, since a report reads the windows of its mode from it
  have hkeeps := runAll_invariant
    (fun fec => fec.modeMgr.windowSizes = ModeManager.defaultTable ∧ Consistent fec) hrun ⟨htable, h⟩
    fun _ _ _ _ hboth hstep => ⟨(step_windowSizes hstep).trans hboth.1, hboth.2.step hboth.1 hstep⟩
  exact hkeeps.2

/-- Every state that a run of calls reaches from a fresh codec with the default window table is
consistent. -/
theorem reachable_consistent (F : Gf16Arith) (env : Platform) (initialMode : FecMode) (now : ℕ)
    (calls : List Call) {outs : List Unit}
    (hrun : runAll (AdaptiveFec.step F env) (new initialMode ModeManager.defaultTable now) calls = .ok (outs, fec)) :
    Consistent fec :=
  (consistent_new initialMode now).run rfl hrun

/-- A report that raises the mode, and a packet sent during the cross-fade. -/
theorem reachable_consistent_cross_fade : ∃ fec, runAll (AdaptiveFec.step gf16Arith ⟨.scalar, 4⟩)
      (new .zero ModeManager.defaultTable 0)
      [.reportLoss ⟨false, .more, fun _ w => w, 500000000, 500000000⟩,
        .send ⟨0, some [1, 2, 3, 4], 4, true, none, 0⟩ []] = .ok ([(), ()], fec) ∧
    fec.modeMgr.currentMode = .light ∧ fec.transitionLeft = 31 ∧ Consistent fec := by
  refine ⟨_, rfl, rfl, rfl, ?_⟩
  apply reachable_consistent gf16Arith ⟨.scalar, 4⟩ .zero 0
    [.reportLoss ⟨false, .more, fun _ w => w, 500000000, 500000000⟩,
      .send ⟨0, some [1, 2, 3, 4], 4, true, none, 0⟩ []]
  rfl

/-! ## Loss reports that change nothing -/

/-- What a decoder has collected: rows with their payloads, slots and the flag. -/
def collected : DecoderVariant → (CsrMatrix × List (Option Packet) × Bool) ⊕
    (List (List UInt16) × List (Option (List UInt8)) × Bool)
  | .g8 d => .inl (d.decodingMatrix, d.systematicPackets, d.isDecoded)
  | .g16 d => .inr (d.matrix, d.payloads, d.isDecoded)

/-- Windows, collected rows and cross-fade of the two states agree. -/
structure Undisturbed (fec fec' : AdaptiveFec) : Prop where
  sourceWindow_eq : fec'.encoder.sourceWindow = fec.encoder.sourceWindow
  collected_eq : collected fec'.decoder = collected fec.decoder
  transitionEncoder_eq : fec'.transitionEncoder = fec.transitionEncoder
  transitionDecoder_eq : fec'.transitionDecoder = fec.transitionDecoder
  transitionLeft_eq : fec'.transitionLeft = fec.transitionLeft

/-- Both codecs are as they were created. -/
def Fresh (fec : AdaptiveFec) : Prop :=
  fec.encoder.sourceWindow = [] ∧
    collected fec.decoder = collected (DecoderVariant.new fec.modeMgr.currentMode fec.modeMgr.currentWindow)

/-- A report that keeps mode and window replaces the codecs by fresh ones, and above the emergency
threshold restarts the cross-fade; it disturbs nothing exactly when there is nothing to lose. -/
theorem reportLoss_undisturbed_iff (fec : AdaptiveFec) (r : Reading)
    (hmode : (fec.reportLoss r).modeMgr.currentMode = fec.modeMgr.currentMode)
    (hwindow : (fec.reportLoss r).modeMgr.currentWindow = fec.modeMgr.currentWindow) :
    Undisturbed fec (fec.reportLoss r) ↔
      fec.Fresh ∧ (r.emergency = true → fec.transitionEncoder = some fec.encoder ∧
        fec.transitionDecoder = some fec.decoder ∧ fec.transitionLeft = 32) := by
  rw [reportLoss_modeMgr] at hmode hwindow
  rw [reportLoss_eq]
  cases hr : r.emergency with
  | true =>
      rw [ModeManager.update_emergency r hr]
      constructor
      · intro h
        have hcollected := h.collected_eq
        simp only [hmode, hwindow] at hcollected
        exact ⟨⟨h.sourceWindow_eq.symm.trans (EncoderVariant.new_sourceWindow _ _ _), hcollected.symm⟩,
          fun _ => ⟨h.transitionEncoder_eq.symm, h.transitionDecoder_eq.symm, h.transitionLeft_eq.symm⟩⟩
      · rintro ⟨⟨hsource, hcollected⟩, hfade⟩
        obtain ⟨henc, hdec, hleft⟩ := hfade rfl
        exact
          { sourceWindow_eq := by simp [hsource]
            collected_eq := by simp only [hmode, hwindow, hcollected]
            transitionEncoder_eq := henc.symm
            transitionDecoder_eq := hdec.symm
            transitionLeft_eq := hleft.symm }
  | false =>
      rw [ModeManager.update_same r hr hmode hwindow]
      constructor
      · intro h
        have hcollected := h.collected_eq
        simp only [hmode, hwindow] at hcollected
        exact ⟨⟨h.sourceWindow_eq.symm.trans (EncoderVariant.new_sourceWindow _ _ _), hcollected.symm⟩,
          fun hfalse => by cases hfalse⟩
      · rintro ⟨⟨hsource, hcollected⟩, -⟩
        exact
          { sourceWindow_eq := by simp [hsource]
            collected_eq := by simp only [hmode, hwindow, hcollected]
            transitionEncoder_eq := rfl
            transitionDecoder_eq := rfl
            transitionLeft_eq := rfl }

theorem reportLoss_undisturbed_iff_fresh :
    Undisturbed (new .light ModeManager.defaultTable 0)
      ((new .light ModeManager.defaultTable 0).reportLoss ⟨false, .keep, fun _ w => w, 1, 1⟩) :=
  (reportLoss_undisturbed_iff _ _ rfl rfl).mpr ⟨⟨rfl, rfl⟩, fun h => by cases h⟩

/-- A report within the dwell time empties the window of a codec that has just sent a packet. -/
theorem reportLoss_disturbs_window : ∃ fec : AdaptiveFec,
    runAll (AdaptiveFec.step gf16Arith ⟨.scalar, 4⟩) (new .light ModeManager.defaultTable 0)
      [.send ⟨0, some [1, 2, 3, 4], 4, true, none, 0⟩ []] = .ok ([()], fec) ∧
    ∃ r : Reading, (fec.reportLoss r).modeMgr.currentMode = fec.modeMgr.currentMode ∧
      (fec.reportLoss r).modeMgr.currentWindow = fec.modeMgr.currentWindow ∧
      ¬ Undisturbed fec (fec.reportLoss r) := by
  refine ⟨_, rfl, ⟨false, .keep, fun _ w => w, 1, 1⟩, rfl, rfl, fun h => ?_⟩
  have hwindow := h.sourceWindow_eq
  cases hwindow

end AdaptiveFec

end QuicFuscate.Fec
