import QuicFuscate.Fec.Proofs.Adaptive

/-!
# Repair packets along a run of packets

An encoder emits its `n - k` repair packets at every packet for which its window is full, and the
window slides by one packet at a time.
-/

namespace QuicFuscate.Fec

open Framework

variable {F : Gf16Arith} {env : Platform}

structure Packet.IsRepair (p : Packet) : Prop where
  isSystematic_eq : p.isSystematic = false
  coefficients_isSome : p.coefficients.isSome = true
  data_isSome : p.data.isSome = true

namespace EncoderVariant

variable {v : EncoderVariant}

private theorem generateRepairPacket_short (h : v.sourceWindow.length < v.k) (i : ℕ) :
    v.generateRepairPacket F env i = .ok none := by
  cases v with
  | g8 e => exact if_pos h
  | g16 e => exact if_pos h

private theorem generateRepairPacket_full (h : v.k ≤ v.sourceWindow.length) {i : ℕ} {o : Option Packet}
    (hgen : v.generateRepairPacket F env i = .ok o) : ∃ p, o = some p ∧ p.IsRepair := by
  cases v with
  | g8 e =>
      have h : e.k ≤ e.sourceWindow.length := h
      rw [generateRepairPacket, Encoder.generateRepairPacket, if_neg (Nat.not_lt.mpr h)] at hgen
      simp only [bind_eq_ok] at hgen
      obtain ⟨_, -, _, -, _, -, _, -, _, -, hgen⟩ := hgen
      exact ⟨_, (Except.ok.inj hgen).symm, rfl, rfl, rfl⟩
  | g16 e =>
      have h : e.k ≤ e.sourceWindow.length := h
      rw [generateRepairPacket, Encoder16.generateRepairPacket, if_neg (Nat.not_lt.mpr h)] at hgen
      simp only [bind_eq_ok] at hgen
      obtain ⟨_, -, _, -, _, -, _, -, _, -, hgen⟩ := hgen
      exact ⟨_, (Except.ok.inj hgen).symm, rfl, rfl, rfl⟩

end EncoderVariant

theorem emitRepairs_short {v : EncoderVariant} (h : v.sourceWindow.length < v.k) (queue : List Packet) :
    emitRepairs F env v queue = .ok queue := by
  apply loopTo_eq (fun _ => queue) rfl _ rfl
  intro i _
  rw [EncoderVariant.generateRepairPacket_short h, ok_bind]
  rfl

private theorem emitRepairs_full {v : EncoderVariant} (h : v.k ≤ v.sourceWindow.length) {queue queue' : List Packet}
    (hemit : emitRepairs F env v queue = .ok queue') : queue'.length = queue.length + (v.n - v.k) := by
  refine loopTo_reaches (fun i q => q.length = queue.length + i) hemit rfl ?_
  intro i q q' _ hq hstep
  rw [bind_eq_ok] at hstep
  obtain ⟨o, hgen, hstep⟩ := hstep
  obtain ⟨p, rfl, -⟩ := EncoderVariant.generateRepairPacket_full h hgen
  rw [← Except.ok.inj hstep, List.length_append, List.length_singleton, hq, Nat.add_assoc]

private theorem emitRepairs_appends {v : EncoderVariant} {queue queue' : List Packet}
    (hemit : emitRepairs F env v queue = .ok queue') :
    ∃ repairs, queue' = queue ++ repairs ∧ ∀ p ∈ repairs, p.IsRepair := by
  rcases Nat.lt_or_ge v.sourceWindow.length v.k with hshort | hfull
  · rw [emitRepairs_short hshort] at hemit
    exact ⟨[], by rw [← Except.ok.inj hemit, List.append_nil], by simp⟩
  refine loopTo_keeps (fun q => ∃ repairs, q = queue ++ repairs ∧ ∀ p ∈ repairs, p.IsRepair) hemit
    ⟨[], by simp, by simp⟩ ?_
  rintro i q q' ⟨repairs, rfl, hrepairs⟩ hstep
  rw [bind_eq_ok] at hstep
  obtain ⟨o, hgen, hstep⟩ := hstep
  obtain ⟨p, rfl, hp⟩ := EncoderVariant.generateRepairPacket_full hfull hgen
  refine ⟨repairs ++ [p], by rw [← Except.ok.inj hstep, List.append_assoc], fun r hr => ?_⟩
  rcases List.mem_append.mp hr with hr | hr
  · exact hrepairs r hr
  · rw [List.mem_singleton.mp hr]
    exact hp

namespace AdaptiveFec

theorem onSend_appends {fec fec' : AdaptiveFec} {pkt : Packet} {queue queue' : List Packet}
    (h : fec.onSend F env pkt queue = .ok (queue', fec')) :
    ∃ repairs, queue' = queue ++ pkt :: repairs ∧ ∀ p ∈ repairs, p.IsRepair := by
  obtain ⟨clone, -, q, htrans, hemit, -⟩ := onSend_eq_ok.mp h
  obtain ⟨first, rfl, hfirst⟩ : ∃ first, q = (queue ++ [pkt]) ++ first ∧ ∀ p ∈ first, p.IsRepair := by
    unfold emitTransition at htrans
    split at htrans
    · exact emitRepairs_appends htrans
    · exact ⟨[], by rw [← Except.ok.inj htrans, List.append_nil], by simp⟩
  obtain ⟨second, rfl, hsecond⟩ := emitRepairs_appends hemit
  refine ⟨first ++ second, by simp, fun p hp => ?_⟩
  rcases List.mem_append.mp hp with hp | hp
  · exact hfirst p hp
  · exact hsecond p hp

/-- A run of `on_send` calls over one queue. -/
def sendAll (F : Gf16Arith) (env : Platform) : AdaptiveFec → List Packet → List Packet →
    Checked (List Packet × AdaptiveFec)
  | fec, [], queue => .ok (queue, fec)
  | fec, pkt :: pkts, queue => do
      let (queue, fec) ← fec.onSend F env pkt queue
      sendAll F env fec pkts queue

variable {fec fec' : AdaptiveFec} {queue queue' : List Packet}

private theorem onSend_length (hleft : fec.transitionLeft = 0) {pkt : Packet}
    (h : fec.onSend F env pkt queue = .ok (queue', fec')) :
    fec'.transitionLeft = 0 ∧ (∃ clone, fec'.encoder = fec.encoder.addSourcePacket clone) ∧
      queue'.length = queue.length + 1 +
        if fec'.encoder.sourceWindow.length < fec.encoder.k then 0 else fec.encoder.n - fec.encoder.k := by
  obtain ⟨clone, -, q, hq, hq', hstate⟩ := onSend_eq_ok.mp h
  have hqueue : queue ++ [pkt] = q := by
    have hfading : fec.isFading = false := by simp [isFading, hleft]
    simpa [emitTransition, hfading] using hq
  rw [countDown, if_neg (by simp [hleft])] at hstate
  subst hstate
  refine ⟨hleft, ⟨clone, rfl⟩, ?_⟩
  subst hqueue
  dsimp only
  split
  · rename_i hshort
    rw [emitRepairs_short (by simpa using hshort)] at hq'
    rw [← Except.ok.inj hq', List.length_append, List.length_singleton]
  · rename_i hfull
    have hlen := emitRepairs_full (by simpa using hfull) hq'
    simpa using hlen

/-- The number of packets of a run for which the window is full, `s` packets being in it before. -/
def fullCalls (k s m : ℕ) : ℕ := m - (k - 1 - s)

private theorem sendAll_length {k : ℕ} (hk : 1 ≤ k) {pkts : List Packet} (henc : fec.encoder.k = k)
    (hleft : fec.transitionLeft = 0) (h : sendAll F env fec pkts queue = .ok (queue', fec')) :
    queue'.length = queue.length + pkts.length +
      fullCalls k fec.encoder.sourceWindow.length pkts.length * (fec.encoder.n - k) := by
  induction pkts generalizing fec queue with
  | nil =>
      cases h
      simp [fullCalls]
  | cons pkt pkts ih =>
      rw [sendAll, bind_eq_ok] at h
      obtain ⟨⟨q, next⟩, hsend, hrun⟩ := h
      obtain ⟨hleft', ⟨clone, hclone⟩, hlen⟩ := onSend_length hleft hsend
      have hwindow := length_pushBounded_eq_ite hk fec.encoder.sourceWindow clone
      have hnext := ih (by simpa [hclone] using henc) hleft' hrun
      rw [hclone, EncoderVariant.addSourcePacket_sourceWindow, henc] at hlen hnext
      rw [EncoderVariant.addSourcePacket_n] at hnext
      rw [hwindow] at hlen hnext
      rw [List.length_cons, hnext, hlen]
      unfold fullCalls
      generalize fec.encoder.sourceWindow.length = s
      generalize fec.encoder.n - k = d
      by_cases hfull : s + 1 < k
      · have hcount : pkts.length + 1 - (k - 1 - s) = pkts.length - (k - 1 - (s + 1)) := by omega
        rw [if_neg (by omega : s ≠ k), if_pos hfull, hcount]
        omega
      · have hcount : pkts.length + 1 - (k - 1 - s) = pkts.length + 1 := by omega
        have hrest : ∀ w, k ≤ w → pkts.length - (k - 1 - w) = pkts.length := by omega
        have hw : k ≤ if s = k then k else s + 1 := by split <;> omega
        rw [if_neg (Nat.not_lt.mpr hw), hcount, hrest _ hw, Nat.succ_mul]
        omega

def repairsAdded (queue queue' pkts : List Packet) : ℕ := queue'.length - queue.length - pkts.length

/-- The repair packets of a run stay within `⌈m / k⌉ * (n - k)` exactly when no repairs are due or
at most `⌈m / k⌉` of the packets meet a full window. -/
theorem repairsAdded_le_iff (mode : FecMode) {k : ℕ} (hk : 1 ≤ k) {pkts : List Packet}
    (henc : fec.encoder.k = k) (hn : fec.encoder.n = (mode.paramsFor k).2) (hleft : fec.transitionLeft = 0)
    (h : sendAll F env fec pkts queue = .ok (queue', fec')) :
    repairsAdded queue queue' pkts ≤ (pkts.length + k - 1) / k * ((mode.paramsFor k).2 - k) ↔
      (mode.paramsFor k).2 ≤ k ∨
        fullCalls k fec.encoder.sourceWindow.length pkts.length ≤ (pkts.length + k - 1) / k := by
  have hlen := sendAll_length hk henc hleft h
  have hadded : repairsAdded queue queue' pkts =
      fullCalls k fec.encoder.sourceWindow.length pkts.length * ((mode.paramsFor k).2 - k) := by
    rw [repairsAdded, hlen, hn]
    omega
  rw [hadded]
  rcases Nat.lt_or_ge k (mode.paramsFor k).2 with hlt | hge
  · rw [Nat.mul_le_mul_right_iff (by omega)]
    exact ⟨.inr, fun h => h.resolve_left (by omega)⟩
  · simp [Nat.sub_eq_zero_of_le hge, hge]

private def sample (i : ℕ) (b : UInt8) : Packet := ⟨i, some [b, 0], 1, true, none, 0⟩

theorem repairsAdded_le_iff_one_window : ∃ queue' fec',
    sendAll gf16Arith ⟨.scalar, 2⟩ (new .light (fun _ => some 2) 0) [sample 0 5, sample 1 9] [] =
      .ok (queue', fec') ∧
    repairsAdded [] queue' [sample 0 5, sample 1 9] ≤ (2 + 2 - 1) / 2 * ((FecMode.light.paramsFor 2).2 - 2) := by
  obtain ⟨⟨queue', fec'⟩, hrun, -⟩ := exists_ok_of_any (p := fun r => r.1.length = 3)
    (x := sendAll gf16Arith ⟨.scalar, 2⟩ (new .light (fun _ => some 2) 0) [sample 0 5, sample 1 9] [])
    (by decide +kernel)
  exact ⟨queue', fec', hrun, (repairsAdded_le_iff .light (by decide) rfl rfl rfl hrun).mpr
    (.inr (by decide))⟩

/-- Four packets with a window of two: three repair packets instead of two. -/
theorem repairsAdded_exceeds_two_windows : ∃ queue' fec',
    sendAll gf16Arith ⟨.scalar, 2⟩ (new .light (fun _ => some 2) 0)
      [sample 0 5, sample 1 9, sample 2 3, sample 3 7] [] = .ok (queue', fec') ∧
    ¬ repairsAdded [] queue' [sample 0 5, sample 1 9, sample 2 3, sample 3 7] ≤
      (4 + 2 - 1) / 2 * ((FecMode.light.paramsFor 2).2 - 2) := by
  obtain ⟨⟨queue', fec'⟩, hrun, hlen⟩ := exists_ok_of_any (p := fun r => r.1.length = 7)
    (x := sendAll gf16Arith ⟨.scalar, 2⟩ (new .light (fun _ => some 2) 0)
      [sample 0 5, sample 1 9, sample 2 3, sample 3 7] [])
    (by decide +kernel)
  have hlen : queue'.length = 7 := by simpa using hlen
  refine ⟨queue', fec', hrun, ?_⟩
  rw [repairsAdded, hlen]
  decide

end AdaptiveFec

end QuicFuscate.Fec
