import QuicFuscate.Fec.Proofs.Encoder16
import QuicFuscate.Fec.Proofs.Sending

/-!
# When sending aborts

Mode table, window ranges, field sizes and block size are chosen independently.  An encoder with a
full window aborts when its evaluation points run out of GF(2^8), or when its coefficients, two
bytes each in GF(2^16), do not fit into a block.
-/

namespace QuicFuscate.Fec

open Framework

/-! ## Parameters -/

private theorem roundBits_le (m : ℕ) : roundBits m ≤ 2 * m := by
  unfold roundBits
  dsimp only
  rcases Nat.eq_zero_or_pos m with rfl | hm
  · simp
  · have hpow : 2 ^ (Nat.log2 m - 23) ≤ m :=
      (Nat.pow_le_pow_right (by decide) (Nat.sub_le _ _)).trans (Nat.log2_self_le (by omega))
    have hdiv := Nat.div_mul_le_self m (2 ^ (Nat.log2 m - 23))
    split
    · rw [Nat.succ_mul]
      omega
    · omega

private theorem paramsFor_extreme_le {window : ℕ} (h : window ≤ 4096) :
    (FecMode.extreme.paramsFor window).2 ≤ 65536 := by
  have h1 := roundBits_le window
  have h2 := roundBits_le (roundBits window * FecMode.extreme.overheadRatio)
  simp only [FecMode.paramsFor, ceilUsize, FecMode.overheadRatio] at h2 ⊢
  omega

/-! ## Encoders -/

/-- A source packet as the connection builds it. -/
structure Outgoing (blockSize len : ℕ) (p : Packet) : Prop extends SourceOk blockSize len p where
  coefficients_eq : p.coefficients = none

private theorem cloneForEncoder_outgoing {env : Platform} {len : ℕ} {p : Packet} (h : Outgoing env.blockSize len p) :
    ∃ clone, p.cloneForEncoder env = .ok clone ∧ SourceOk env.blockSize len clone := by
  obtain ⟨d, hd, hlen⟩ := h.data_eq
  have hle := h.len_le
  have hslice : sliceOf d 0 p.len = .ok (d.take p.len) :=
    sliceOf_of_le (Nat.zero_le _) (by rw [h.len_eq, hlen]; exact hle)
  have htake : (d.take p.len).length = len := by rw [List.length_take, h.len_eq, hlen]; omega
  have hcopy : copyFront env.alloc (d.take p.len) = .ok (d.take p.len ++ env.alloc.drop len) := by
    rw [copyFront_of_le (by rw [htake, Platform.alloc_length]; exact hle), htake]
  refine ⟨{ p with data := some (d.take p.len ++ env.alloc.drop len) }, ?_, h.len_eq, ⟨_, rfl, ?_⟩, hle⟩
  · simp [Packet.cloneForEncoder, hd, hslice, hcopy, h.coefficients_eq]
  · rw [List.length_append, htake, List.length_drop, Platform.alloc_length]
    omega

namespace EncoderVariant

/-- The geometry that the mode manager gives an encoder, and a window of equally long packets. -/
structure Built (blockSize len : ℕ) (v : EncoderVariant) : Prop where
  geometry : ∃ mode : FecMode, mode.Admits v.k ∧ v.n = (mode.paramsFor v.k).2 ∧ (v.isG16 = true ↔ mode = .extreme)
  window_le : 1 ≤ v.k → v.sourceWindow.length ≤ v.k
  source : ∀ p ∈ v.sourceWindow, SourceOk blockSize len p

/-- The repair packets of a full window can be formed. -/
def Fits (v : EncoderVariant) : Prop := if v.isG16 then v.k ≤ 2048 else v.n ≤ 256

/-- After one more packet the window is still short, or nothing is due, or the repair packets can
be formed. -/
def Safe (v : EncoderVariant) : Prop :=
  v.n ≤ v.k ∨ v.sourceWindow.length + 1 < v.k ∨ v.Fits

variable {blockSize len : ℕ} {env : Platform} {v : EncoderVariant}

/-- Only a window of no packets has `k = 0`, and then no repair packets are due. -/
theorem Built.one_le (h : v.Built blockSize len) (hn : v.k < v.n) : 1 ≤ v.k := by
  obtain ⟨mode, -, hparams, -⟩ := h.geometry
  by_contra hk
  have hzero : v.k = 0 := by omega
  rw [hparams, hzero] at hn
  revert hn
  cases mode <;> decide

private theorem getLast_of_pos (h : 1 ≤ v.sourceWindow.length) : ∃ last, v.sourceWindow.getLast? = some last :=
  ⟨_, by rw [List.getLast?_eq_getElem?, List.getElem?_eq_getElem (by omega)]⟩

theorem Built.generateRepairPacket_ok (h : v.Built env.blockSize len) (hblock : env.blockSize = 4096)
    (hfull : v.sourceWindow.length = v.k) (hfits : v.Fits) {i : ℕ} (hi : i < v.n - v.k) :
    ∃ o, v.generateRepairPacket gf16Arith env i = .ok o := by
  have hk := h.one_le (by omega)
  obtain ⟨last, hlast⟩ := getLast_of_pos (hfull.symm ▸ hk)
  obtain ⟨mode, hadmits, hparams, hfield⟩ := h.geometry
  cases v with
  | g8 e =>
      have hfits : e.n ≤ 256 := hfits
      have hi : i < e.n - e.k := hi
      exact ⟨_, Fec.generateRepairPacket_ok hfull hlast h.source (pointsDistinct_of_le (by omega))
        (by omega)⟩
  | g16 e =>
      have hfits : e.k ≤ 2048 := hfits
      have hi : i < e.n - e.k := hi
      have hn : e.n ≤ 65536 := by
        have hparams : e.n = (mode.paramsFor e.k).2 := hparams
        rw [hparams, hfield.mp rfl]
        exact paramsFor_extreme_le (by omega)
      exact ⟨_, generateRepairPacket16_ok gf16Mul_zero_left hfull hlast h.source
        (pointsDistinct16_of_lt (by omega)) (by omega)⟩

theorem Built.generateRepairPacket_error (h : v.Built env.blockSize len) (hblock : env.blockSize = 4096)
    (hfull : v.sourceWindow.length = v.k) (hn : v.k < v.n) (hfits : ¬ v.Fits) :
    ∃ i < v.n - v.k, ∃ e, v.generateRepairPacket gf16Arith env i = .error e := by
  have hk := h.one_le hn
  obtain ⟨mode, hadmits, hparams, hfield⟩ := h.geometry
  cases v with
  | g8 e =>
      have hfits : ¬ e.n ≤ 256 := hfits
      have hn : e.k < e.n := hn
      have hk : 1 ≤ e.k := hk
      refine ⟨256 - e.k, by change _ < e.n - e.k; omega, _, Fec.generateRepairPacket_error hfull hk ?_⟩
      intro hpoints
      refine hpoints ((e.k + (256 - e.k)) % 256) ?_ ?_
      · have := Nat.mod_lt (e.k + (256 - e.k)) (by decide : 0 < 256)
        rcases Nat.lt_or_ge 256 e.k with hlt | hge
        · omega
        · rw [Nat.add_sub_cancel' hge]
          omega
      · rw [ofNat_byte_eq_iff, Nat.mod_mod]
  | g16 e =>
      have hfits : ¬ e.k ≤ 2048 := hfits
      have hn : e.k < e.n := hn
      have hmode : e.k ≤ 4096 := by
        have hle := hadmits.2
        rw [hfield.mp rfl] at hle
        exact hle
      exact ⟨0, by change 0 < e.n - e.k; omega, _, generateRepairPacket16_error gf16Mul_zero_left hfull hk
        (fun p hp => (h.source p hp).inBlock)
        (pointsDistinct16_of_lt (by omega)) (by omega)⟩

theorem Built.emitRepairs_ok_iff (h : v.Built env.blockSize len) (hblock : env.blockSize = 4096)
    (queue : List Packet) :
    (∃ queue', emitRepairs gf16Arith env v queue = .ok queue') ↔
      v.n ≤ v.k ∨ v.sourceWindow.length < v.k ∨ v.Fits := by
  rcases Nat.lt_or_ge v.k v.n with hn | hn
  · have hle := h.window_le (h.one_le hn)
    rcases Nat.lt_or_ge v.sourceWindow.length v.k with hshort | hge
    · exact iff_of_true ⟨queue, emitRepairs_short hshort queue⟩ (.inr (.inl hshort))
    · have hfull : v.sourceWindow.length = v.k := le_antisymm hle hge
      constructor
      · rintro ⟨queue', hemit⟩
        refine .inr (.inr (Classical.byContradiction fun hfits => ?_))
        obtain ⟨i, hi, e, herror⟩ := h.generateRepairPacket_error hblock hfull hn hfits
        obtain ⟨u, u', hstep⟩ := loopTo_step_ok hemit hi
        rw [herror, error_bind] at hstep
        cases hstep
      · intro hcases
        have hfits : v.Fits := by
          rcases hcases with h | h | h
          · omega
          · omega
          · exact h
        have hemit : ∃ queue', emitRepairs gf16Arith env v queue = .ok queue' ∧ True := by
          apply loopTo_ok (fun _ _ => True) trivial
          intro i q hi _
          obtain ⟨o, ho⟩ := h.generateRepairPacket_ok hblock hfull hfits hi
          rw [ho, ok_bind]
          cases o with
          | none => exact ⟨_, rfl, trivial⟩
          | some p => exact ⟨_, rfl, trivial⟩
        obtain ⟨queue', hemit, -⟩ := hemit
        exact ⟨queue', hemit⟩
  · refine iff_of_true ⟨queue, ?_⟩ (.inl hn)
    rw [emitRepairs, Nat.sub_eq_zero_of_le hn, loopTo_zero]

private theorem built_new (mode : FecMode) {window : ℕ} (h : mode.Admits window) :
    (new mode window (mode.paramsFor window).2).Built blockSize len where
  geometry := ⟨mode, by simpa using h, by simp, by simp⟩
  window_le := by simp
  source := by simp

theorem Built.addSourcePacket (h : v.Built blockSize len) {pkt : Packet} (hpkt : SourceOk blockSize len pkt) :
    (v.addSourcePacket pkt).Built blockSize len where
  geometry := by simpa using h.geometry
  window_le := by
    intro hk
    rw [addSourcePacket_k] at hk ⊢
    rw [addSourcePacket_sourceWindow, length_pushBounded hk (h.window_le hk)]
    exact Nat.min_le_right _ _
  source := by
    intro p hp
    rw [addSourcePacket_sourceWindow] at hp
    rcases mem_pushBounded hp with hold | rfl
    · exact h.source p hold
    · exact hpkt

theorem Built.emitRepairs_addSourcePacket_ok_iff (h : v.Built env.blockSize len) (hblock : env.blockSize = 4096)
    {pkt : Packet} (hpkt : SourceOk env.blockSize len pkt) (queue : List Packet) :
    (∃ queue', emitRepairs gf16Arith env (v.addSourcePacket pkt) queue = .ok queue') ↔ v.Safe := by
  rw [(h.addSourcePacket hpkt).emitRepairs_ok_iff hblock]
  simp only [addSourcePacket_k, addSourcePacket_n, addSourcePacket_sourceWindow, Fits, addSourcePacket_isG16, Safe]
  rcases Nat.lt_or_ge v.k v.n with hn | hn
  · have hk := h.one_le hn
    have hle := h.window_le hk
    have hlen := length_pushBounded hk hle pkt
    have hiff : (pushBounded v.k v.sourceWindow pkt).length < v.k ↔ v.sourceWindow.length + 1 < v.k := by omega
    rw [hiff]
  · simp [hn]

end EncoderVariant

/-! ## Runs -/

namespace AdaptiveFec

variable {env : Platform} {len : ℕ} {fec fec' : AdaptiveFec}

/-- A codec whose encoders the mode manager built and that has sent packets of length `len`. -/
structure Ready (blockSize len : ℕ) (fec : AdaptiveFec) : Prop where
  table : fec.modeMgr.windowSizes = ModeManager.defaultTable
  admits : fec.modeMgr.currentMode.Admits fec.modeMgr.currentWindow
  encoder : fec.encoder.Built blockSize len
  transition : ∀ e ∈ fec.transitionEncoder, e.Built blockSize len

def Call.Sending (blockSize len : ℕ) : Call → Prop
  | .send pkt _ => Outgoing blockSize len pkt
  | .receive _ => False
  | .reportLoss _ => True

/-- Every encoder that a call asks for repair packets is safe. -/
def SafeCall (fec : AdaptiveFec) : Call → Prop
  | .send _ _ => fec.encoder.Safe ∧ (fec.isFading = true → ∀ e ∈ fec.transitionEncoder, e.Safe)
  | _ => True

theorem Ready.emitTransition_ok_iff (h : Ready env.blockSize len fec) (hblock : env.blockSize = 4096)
    {clone : Packet} (hsource : SourceOk env.blockSize len clone) (queue : List Packet) :
    (∃ queue', fec.emitTransition gf16Arith env (fec.transitionEncoder.map (·.addSourcePacket clone)) queue =
      .ok queue') ↔ (fec.isFading = true → ∀ e ∈ fec.transitionEncoder, e.Safe) := by
  cases hfading : fec.isFading with
  | false => exact iff_of_true ⟨queue, by simp [emitTransition, hfading]⟩ (by simp)
  | true =>
      cases he : fec.transitionEncoder with
      | none => exact iff_of_true ⟨queue, by simp [emitTransition]⟩ (by simp)
      | some e =>
          have hiff := (h.transition e (by simp [he])).emitRepairs_addSourcePacket_ok_iff hblock hsource queue
          simpa [emitTransition, hfading] using hiff

theorem Ready.onSend_ok_iff (h : Ready env.blockSize len fec) (hblock : env.blockSize = 4096) {pkt : Packet}
    (hpkt : Outgoing env.blockSize len pkt) (queue : List Packet) :
    (∃ r, fec.onSend gf16Arith env pkt queue = .ok r) ↔ fec.SafeCall (.send pkt queue) := by
  obtain ⟨clone, hclone, hsource⟩ := cloneForEncoder_outgoing hpkt
  have htransition := h.emitTransition_ok_iff hblock hsource (queue ++ [pkt])
  have hmain := h.encoder.emitRepairs_addSourcePacket_ok_iff hblock hsource
  constructor
  · rintro ⟨⟨queue', fec'⟩, hr⟩
    obtain ⟨clone', hclone', q, hq, hq', -⟩ := onSend_eq_ok.mp hr
    obtain rfl := Except.ok.inj (hclone.symm.trans hclone')
    exact ⟨(hmain q).mp ⟨queue', hq'⟩, htransition.mp ⟨q, hq⟩⟩
  · rintro ⟨hsafe, hfade⟩
    obtain ⟨q, hq⟩ := htransition.mpr hfade
    obtain ⟨q', hq'⟩ := (hmain q).mpr hsafe
    exact ⟨_, onSend_eq_ok.mpr ⟨clone, hclone, q, hq, hq', rfl⟩⟩

private theorem ready_new (blockSize len : ℕ) (initialMode : FecMode) (now : ℕ) :
    Ready blockSize len (new initialMode ModeManager.defaultTable now) where
  table := rfl
  admits := FecMode.admits_defaultWindows initialMode
  encoder := EncoderVariant.built_new initialMode (FecMode.admits_defaultWindows initialMode)
  transition := by simp [new]

theorem countDown_encoders (fec : AdaptiveFec) :
    (countDown fec).modeMgr = fec.modeMgr ∧ (countDown fec).encoder = fec.encoder ∧
      ∀ e ∈ (countDown fec).transitionEncoder, e ∈ fec.transitionEncoder := by
  unfold countDown
  split
  · dsimp only
    split
    · exact ⟨rfl, rfl, by simp⟩
    · exact ⟨rfl, rfl, fun e he => he⟩
  · exact ⟨rfl, rfl, fun e he => he⟩

theorem Ready.onSend (h : Ready env.blockSize len fec) {pkt : Packet} (hpkt : Outgoing env.blockSize len pkt)
    {queue queue' : List Packet} (hsend : fec.onSend gf16Arith env pkt queue = .ok (queue', fec')) :
    Ready env.blockSize len fec' := by
  obtain ⟨clone, hclone, hsource⟩ := cloneForEncoder_outgoing hpkt
  obtain ⟨clone', hclone', -, -, -, rfl⟩ := onSend_eq_ok.mp hsend
  obtain rfl := Except.ok.inj (hclone.symm.trans hclone')
  obtain ⟨hmgr, henc, htrans⟩ := countDown_encoders { fec with
    encoder := fec.encoder.addSourcePacket clone
    transitionEncoder := fec.transitionEncoder.map (·.addSourcePacket clone) }
  refine ⟨hmgr.symm ▸ h.table, hmgr.symm ▸ h.admits, henc.symm ▸ h.encoder.addSourcePacket hsource, fun e he => ?_⟩
  obtain ⟨e', he', rfl⟩ := Option.mem_map.mp (htrans e he)
  exact (h.transition e' he').addSourcePacket hsource

theorem Ready.reportLoss {blockSize : ℕ} (h : Ready blockSize len fec) (r : Reading) :
    Ready blockSize len (fec.reportLoss r) := by
  have hadmits := ModeManager.update_admits r h.table h.admits
  have htable := (ModeManager.update_windowSizes r fec.modeMgr).trans h.table
  rw [reportLoss_eq]
  cases (fec.modeMgr.update r).1 with
  | some prev =>
      refine ⟨htable, hadmits, EncoderVariant.built_new _ hadmits, fun e he => ?_⟩
      rw [← Option.some.inj he]
      exact h.encoder
  | none => exact ⟨htable, hadmits, EncoderVariant.built_new _ hadmits, h.transition⟩

/-- One call of the sending side completes exactly when it is safe, and leaves the codec ready. -/
theorem Ready.step_ok_iff (h : Ready env.blockSize len fec) (hblock : env.blockSize = 4096) {c : Call}
    (hc : c.Sending env.blockSize len) :
    ((∃ fec', fec.step gf16Arith env c = .ok ((), fec')) ↔ fec.SafeCall c) ∧
      ∀ fec', fec.step gf16Arith env c = .ok ((), fec') → Ready env.blockSize len fec' := by
  cases c with
  | send pkt queue =>
      rw [← h.onSend_ok_iff hblock hc queue]
      have hstep : ∀ fec', fec.step gf16Arith env (.send pkt queue) = .ok ((), fec') ↔
          ∃ q, fec.onSend gf16Arith env pkt queue = .ok (q, fec') := by
        intro fec'
        rw [step, bind_eq_ok]
        constructor
        · rintro ⟨⟨q, next⟩, hsend, hnext⟩
          cases hnext
          exact ⟨q, hsend⟩
        · rintro ⟨q, hsend⟩
          exact ⟨(q, fec'), hsend, rfl⟩
      constructor
      · constructor
        · rintro ⟨fec', hfec⟩
          obtain ⟨q, hq⟩ := (hstep fec').mp hfec
          exact ⟨_, hq⟩
        · rintro ⟨⟨q, fec'⟩, hq⟩
          exact ⟨fec', (hstep fec').mpr ⟨q, hq⟩⟩
      · intro fec' hfec
        obtain ⟨q, hq⟩ := (hstep fec').mp hfec
        exact h.onSend hc hq
  | receive pkt => exact hc.elim
  | reportLoss r =>
      refine ⟨iff_of_true ⟨_, rfl⟩ trivial, fun fec' hfec => ?_⟩
      cases hfec
      exact h.reportLoss r

/-- Every call of a run is safe in the state in which it is made. -/
def AllSafe (env : Platform) : AdaptiveFec → List Call → Prop
  | _, [] => True
  | fec, c :: cs => fec.SafeCall c ∧ ∀ fec', fec.step gf16Arith env c = .ok ((), fec') → AllSafe env fec' cs

theorem Ready.run_ok_iff (h : Ready env.blockSize len fec) (hblock : env.blockSize = 4096) {calls : List Call}
    (hcalls : ∀ c ∈ calls, c.Sending env.blockSize len) :
    (∃ r, runAll (AdaptiveFec.step gf16Arith env) fec calls = .ok r) ↔ AllSafe env fec calls := by
  induction calls generalizing fec with
  | nil => exact iff_of_true ⟨_, rfl⟩ trivial
  | cons c calls ih =>
      obtain ⟨hok, hnext⟩ := h.step_ok_iff hblock (hcalls c (by simp))
      have hrest : ∀ fec', fec.step gf16Arith env c = .ok ((), fec') →
          ((∃ r, runAll (AdaptiveFec.step gf16Arith env) fec' calls = .ok r) ↔ AllSafe env fec' calls) :=
        fun fec' hstep => ih (hnext fec' hstep) fun c' hc' => hcalls c' (by simp [hc'])
      constructor
      · rintro ⟨⟨outs, last⟩, hrun⟩
        obtain ⟨⟨⟩, fec', outs', hstep, hrun', -⟩ := runAll_cons_eq_ok.mp hrun
        refine ⟨hok.mp ⟨fec', hstep⟩, fun next hstep' => ?_⟩
        have heq : next = fec' := by
          rw [hstep, Except.ok.injEq, Prod.mk.injEq] at hstep'
          exact hstep'.2.symm
        exact heq ▸ (hrest fec' hstep).mp ⟨_, hrun'⟩
      · rintro ⟨hsafe, hall⟩
        obtain ⟨fec', hstep⟩ := hok.mpr hsafe
        obtain ⟨⟨outs, last⟩, hrun⟩ := (hrest fec' hstep).mpr (hall fec' hstep)
        exact ⟨_, runAll_cons hstep hrun⟩

/-- A run of the sending side, over blocks of 4096 bytes and from any initial mode, completes
exactly when every packet finds the emitting encoders safe. -/
theorem sending_completes_iff (policy : SimdPolicy) (initialMode : FecMode) (now len : ℕ) (calls : List Call)
    (hcalls : ∀ c ∈ calls, c.Sending 4096 len) :
    (∃ r, runAll (AdaptiveFec.step gf16Arith ⟨policy, 4096⟩) (new initialMode ModeManager.defaultTable now) calls =
      .ok r) ↔ AllSafe ⟨policy, 4096⟩ (new initialMode ModeManager.defaultTable now) calls :=
  (ready_new 4096 len initialMode now).run_ok_iff rfl hcalls

private def samplePacket : Packet := ⟨0, some (List.replicate 4096 7), 1, true, none, 0⟩

private theorem outgoing_samplePacket : Outgoing 4096 1 samplePacket where
  len_eq := rfl
  data_eq := ⟨_, rfl, List.length_replicate⟩
  len_le := by decide
  coefficients_eq := rfl

private theorem sending_samplePackets {m : ℕ} :
    ∀ c ∈ List.replicate m (Call.send samplePacket []), c.Sending 4096 1 := by
  intro c hc
  rw [List.eq_of_mem_replicate hc]
  exact outgoing_samplePacket

private theorem step_send_encoders {pkt : Packet} {queue : List Packet}
    (hstep : fec.step gf16Arith env (.send pkt queue) = .ok ((), fec')) :
    ∃ clone, fec'.encoder = fec.encoder.addSourcePacket clone ∧
      ∀ e ∈ fec'.transitionEncoder, e ∈ fec.transitionEncoder.map (·.addSourcePacket clone) := by
  rw [step, bind_eq_ok] at hstep
  obtain ⟨⟨q, next⟩, hsend, hnext⟩ := hstep
  cases hnext
  obtain ⟨clone, rfl⟩ := onSend_state hsend
  exact ⟨clone, (countDown_encoders _).2⟩

/-- Packets stay safe as long as nothing fades and the repair packets fit. -/
private theorem allSafe_of_fits {pkt : Packet} (hfits : fec.encoder.Fits)
    (hfade : fec.transitionEncoder = none) (m : ℕ) :
    AllSafe env fec (List.replicate m (.send pkt [])) := by
  induction m generalizing fec with
  | zero => trivial
  | succ m ih =>
      refine ⟨⟨.inr (.inr hfits), fun _ e he => ?_⟩, fun fec' hstep => ?_⟩
      · rw [hfade] at he
        cases he
      · obtain ⟨clone, hclone, hnone⟩ := step_send_encoders hstep
        rw [hfade, Option.map_none] at hnone
        refine ih ?_ (Option.eq_none_iff_forall_not_mem.mpr fun e he => Option.not_mem_none e (hnone e he))
        simpa [hclone, EncoderVariant.Fits] using hfits

/-- Light mode keeps a window of 16 packets with one repair packet, which each of the last five of 20 packets emits. -/
theorem sending_completes_iff_full_window :
    (new .light ModeManager.defaultTable 0).encoder.k = 16 ∧ (new .light ModeManager.defaultTable 0).encoder.n = 17 ∧
    ∃ r, runAll (AdaptiveFec.step gf16Arith ⟨.scalar, 4096⟩) (new .light ModeManager.defaultTable 0)
      (List.replicate 20 (.send samplePacket [])) = .ok r :=
  ⟨by decide, by decide, (sending_completes_iff .scalar .light 0 1 _ sending_samplePackets).mpr
    (allSafe_of_fits (show _ ≤ 256 by decide) rfl 20)⟩

theorem Ready.fits_of_allSafe (hblock : env.blockSize = 4096) {pkt : Packet}
    (hpkt : Outgoing env.blockSize len pkt) {m : ℕ} (h : Ready env.blockSize len fec) (hm : 1 ≤ m)
    (hfull : fec.encoder.k ≤ fec.encoder.sourceWindow.length + m)
    (hsafe : AllSafe env fec (List.replicate m (.send pkt []))) :
    fec.encoder.n ≤ fec.encoder.k ∨ fec.encoder.Fits := by
  induction m generalizing fec with
  | zero => omega
  | succ m ih =>
      rw [List.replicate_succ, AllSafe] at hsafe
      obtain ⟨⟨hmain, hfade⟩, hrest⟩ := hsafe
      obtain ⟨hok, hready⟩ := h.step_ok_iff hblock (c := .send pkt []) hpkt
      obtain ⟨fec', hstep⟩ := hok.mpr ⟨hmain, hfade⟩
      rcases hmain with hn | hshort | hfits
      · exact .inl hn
      · -- The window is still short, so the next packet decides.
        obtain ⟨clone, hclone, -⟩ := step_send_encoders hstep
        have hwindow : fec'.encoder.sourceWindow.length = fec.encoder.sourceWindow.length + 1 := by
          rw [hclone, EncoderVariant.addSourcePacket_sourceWindow, length_pushBounded_eq_ite (by omega),
            if_neg (by omega)]
        have hnext := ih (hready fec' hstep) (by omega) (by
          rw [hwindow, hclone, EncoderVariant.addSourcePacket_k]
          omega) (hrest fec' hstep)
        simpa [hclone, EncoderVariant.Fits] using hnext
      · exact .inr hfits

/-- Strong mode with its default window of 512 packets and 768 evaluation points: the packet that
fills the window asks for the inverse of zero. -/
theorem sending_aborts_strong : (∀ c ∈ List.replicate 512 (Call.send samplePacket []), c.Sending 4096 1) ∧
    ¬ ∃ r, runAll (AdaptiveFec.step gf16Arith ⟨.scalar, 4096⟩) (new .strong ModeManager.defaultTable 0)
      (List.replicate 512 (.send samplePacket [])) = .ok r := by
  have hready : Ready 4096 1 (new .strong ModeManager.defaultTable 0) := ready_new 4096 1 .strong 0
  refine ⟨sending_samplePackets, fun hrun => ?_⟩
  have hsafe := (@Ready.run_ok_iff ⟨.scalar, 4096⟩ 1 _ hready rfl _ sending_samplePackets).mp hrun
  have hfits := Ready.fits_of_allSafe rfl outgoing_samplePacket hready (by decide) (by decide) hsafe
  revert hfits
  simp only [imp_false, not_or]
  refine ⟨by decide, ?_⟩
  change ¬ (new .strong ModeManager.defaultTable 0).encoder.n ≤ 256
  decide

end AdaptiveFec

end QuicFuscate.Fec
