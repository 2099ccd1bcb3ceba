import QuicFuscate.Fec.Proofs.Adaptive

/-!
# The two ends of a cross-fade

A sender and a receiver of one configuration see the same loss reports, and the receiver is given
every packet that the sender queued.  Only sending advances the counter of a cross-fade.  The
receiver therefore keeps its previous decoder and the state of the last change of mode, and the two
ends agree until the sender passes the half-way point.
-/

namespace QuicFuscate.Fec

open Framework

/-- Two codecs with the packets on the way from the first to the second. -/
structure FecLink where
  sender : AdaptiveFec
  receiver : AdaptiveFec
  outgoingQueue : List Packet

/-- A loss report reaches both ends at once; their estimators have seen the same reports before, so
that they read the same off it. -/
inductive LinkEvent
  | report (r : Reading)
  | send (pkt : Packet)
  | deliver

namespace FecLink

def new (initialMode : FecMode) (windowSizes : FecMode → Option ℕ) (now : ℕ) : FecLink where
  sender := AdaptiveFec.new initialMode windowSizes now
  receiver := AdaptiveFec.new initialMode windowSizes now
  outgoingQueue := []

def receiveAll (F : Gf16Arith) (env : Platform) (fec : AdaptiveFec) (pkts : List Packet) :
    Checked AdaptiveFec :=
  pkts.foldlM (fun fec pkt => do return (← fec.onReceive F env pkt).2) fec

def step (F : Gf16Arith) (env : Platform) (link : FecLink) : LinkEvent → Checked (Unit × FecLink)
  | .report r =>
      return ((), { link with sender := link.sender.reportLoss r, receiver := link.receiver.reportLoss r })
  | .send pkt => do
      let (queue, sender) ← link.sender.onSend F env pkt link.outgoingQueue
      return ((), { link with sender := sender, outgoingQueue := queue })
  | .deliver => do
      let receiver ← receiveAll F env link.receiver link.outgoingQueue
      return ((), { link with receiver := receiver, outgoingQueue := [] })

/-- Both ends are in a cross-fade or neither is, and both have their previous codec or neither. -/
def InStep (link : FecLink) : Prop :=
  link.sender.isTransitioning = link.receiver.isTransitioning ∧
    link.sender.transitionEncoder.isSome = link.receiver.transitionDecoder.isSome

instance (link : FecLink) : Decidable link.InStep := inferInstanceAs (Decidable (_ ∧ _))

/-! ## Packets since the last change -/

/-- The mode manager, and the packets sent since the last report that started a cross-fade. -/
def track : ModeManager × Option ℕ → LinkEvent → ModeManager × Option ℕ
  | (m, sent), .report r => ((m.update r).2, if (m.update r).1.isSome then some 0 else sent)
  | (m, sent), .send _ => (m, sent.map (· + 1))
  | (m, sent), .deliver => (m, sent)

/-- The packets sent since the last report that started a cross-fade, if there was one. -/
def sentSinceChange (m : ModeManager) (events : List LinkEvent) : Option ℕ :=
  (events.foldl track (m, none)).2

/-- What the two ends look like by the packets sent since the last change. -/
structure Tracked (link : FecLink) (m : ModeManager) (sent : Option ℕ) : Prop where
  sender_modeMgr : link.sender.modeMgr = m
  receiver_modeMgr : link.receiver.modeMgr = m
  sender_left : link.sender.transitionLeft = (sent.map (32 - ·)).getD 0
  receiver_left : link.receiver.transitionLeft = (sent.map fun _ => 32).getD 0
  sender_codec : link.sender.transitionEncoder.isSome = sent.any (· < 16)
  receiver_codec : link.receiver.transitionDecoder.isSome = sent.isSome

variable {F : Gf16Arith} {env : Platform} {link link' : FecLink} {m : ModeManager} {sent : Option ℕ}

private theorem tracked_new (initialMode : FecMode) (windowSizes : FecMode → Option ℕ) (now : ℕ) :
    Tracked (new initialMode windowSizes now) (ModeManager.new initialMode windowSizes now) none where
  sender_modeMgr := rfl
  receiver_modeMgr := rfl
  sender_left := rfl
  receiver_left := rfl
  sender_codec := rfl
  receiver_codec := rfl

theorem Tracked.report (h : Tracked link m sent) (r : Reading) :
    Tracked { link with sender := link.sender.reportLoss r, receiver := link.receiver.reportLoss r }
      (m.update r).2 (if (m.update r).1.isSome then some 0 else sent) := by
  have hsender := AdaptiveFec.reportLoss_eq link.sender r
  have hreceiver := AdaptiveFec.reportLoss_eq link.receiver r
  simp only [h.sender_modeMgr] at hsender
  simp only [h.receiver_modeMgr] at hreceiver
  cases hupdate : (m.update r).1 with
  | some prev =>
      rw [hupdate] at hsender hreceiver
      rw [hsender, hreceiver]
      exact ⟨rfl, rfl, rfl, rfl, rfl, rfl⟩
  | none =>
      rw [hupdate] at hsender hreceiver
      rw [hsender, hreceiver]
      exact ⟨rfl, rfl, h.sender_left, h.receiver_left, h.sender_codec, h.receiver_codec⟩

theorem Tracked.send (h : Tracked link m sent) {pkt : Packet} {queue : List Packet} {sender : AdaptiveFec}
    (hsend : link.sender.onSend F env pkt link.outgoingQueue = .ok (queue, sender)) :
    Tracked { link with sender := sender, outgoingQueue := queue } m (sent.map (· + 1)) := by
  obtain ⟨clone, rfl⟩ := AdaptiveFec.onSend_state hsend
  have hleft := h.sender_left
  have hcodec := h.sender_codec
  constructor
  · rw [AdaptiveFec.countDown_modeMgr]
    exact h.sender_modeMgr
  · exact h.receiver_modeMgr
  · rw [AdaptiveFec.countDown_transitionLeft]
    cases sent with
    | none => simpa using congrArg (· - 1) hleft
    | some n =>
        simp only [Option.map_some, Option.getD_some] at hleft ⊢
        omega
  · cases sent <;> exact h.receiver_left
  · rw [AdaptiveFec.countDown_transitionEncoder]
    dsimp only
    rw [hleft]
    cases sent with
    | none => simpa using hcodec
    | some n =>
        simp only [Option.map_some, Option.getD_some, Option.any_some] at hcodec ⊢
        -- the packet that reaches the half-way point is the sixteenth
        split
        · rw [Option.isSome_none, eq_comm, decide_eq_false_iff_not]
          omega
        · rw [Option.isSome_map, hcodec, decide_eq_decide]
          omega
  · cases sent <;> exact h.receiver_codec

private theorem receiveAll_keeps {fec fec' : AdaptiveFec} {pkts : List Packet}
    (h : receiveAll F env fec pkts = .ok fec') :
    fec'.modeMgr = fec.modeMgr ∧ fec'.transitionLeft = fec.transitionLeft ∧
      fec'.transitionDecoder.isSome = fec.transitionDecoder.isSome := by
  induction pkts generalizing fec with
  | nil =>
      cases h
      exact ⟨rfl, rfl, rfl⟩
  | cons pkt pkts ih =>
      rw [receiveAll, List.foldlM_cons, bind_eq_ok] at h
      obtain ⟨next, hnext, h⟩ := h
      rw [bind_eq_ok] at hnext
      obtain ⟨⟨result, next'⟩, hrec, hnext⟩ := hnext
      cases hnext
      obtain ⟨hmgr, -, -, hleft, hdec⟩ := AdaptiveFec.onReceive_keeps hrec
      obtain ⟨hmgr', hleft', hdec'⟩ := ih h
      exact ⟨hmgr'.trans hmgr, hleft'.trans hleft, hdec'.trans hdec⟩

theorem Tracked.deliver (h : Tracked link m sent) {receiver : AdaptiveFec}
    (hrec : receiveAll F env link.receiver link.outgoingQueue = .ok receiver) :
    Tracked { link with receiver := receiver, outgoingQueue := [] } m sent := by
  obtain ⟨hmgr, hleft, hdec⟩ := receiveAll_keeps hrec
  exact { h with
    receiver_modeMgr := hmgr.trans h.receiver_modeMgr
    receiver_left := hleft.trans h.receiver_left
    receiver_codec := hdec.trans h.receiver_codec }

theorem Tracked.step (h : Tracked link m sent) {event : LinkEvent} {out : Unit}
    (hstep : link.step F env event = .ok (out, link')) :
    Tracked link' (track (m, sent) event).1 (track (m, sent) event).2 := by
  cases event with
  | report r =>
      cases hstep
      exact h.report r
  | send pkt =>
      rw [FecLink.step, bind_eq_ok] at hstep
      obtain ⟨⟨queue, sender⟩, hsend, hstep⟩ := hstep
      cases hstep
      exact h.send hsend
  | deliver =>
      rw [FecLink.step, bind_eq_ok] at hstep
      obtain ⟨receiver, hrec, hstep⟩ := hstep
      cases hstep
      exact h.deliver hrec

theorem Tracked.run {events : List LinkEvent} {outs : List Unit} (h : Tracked link m sent)
    (hrun : runAll (FecLink.step F env) link events = .ok (outs, link')) :
    Tracked link' (events.foldl track (m, sent)).1 (events.foldl track (m, sent)).2 := by
  induction events generalizing link m sent outs with
  | nil =>
      cases hrun
      exact h
  | cons event events ih =>
      obtain ⟨out, next, outs', hstep, hrun', -⟩ := runAll_cons_eq_ok.mp hrun
      exact ih (h.step hstep) hrun'

theorem Tracked.inStep_iff (h : Tracked link m sent) : link.InStep ↔ ∀ n ∈ sent, n < 16 := by
  unfold InStep AdaptiveFec.isTransitioning
  rw [h.sender_left, h.receiver_left, h.sender_codec, h.receiver_codec]
  cases sent with
  | none => simp
  | some n =>
      simp only [Option.map_some, Option.getD_some, Option.any_some, Option.isSome_some,
        Option.mem_some_iff, forall_eq']
      constructor
      · intro hstep
        simpa using hstep.2
      · intro hn
        constructor
        · rw [decide_eq_decide]
          omega
        · simpa using hn

/-- After a delivered batch the two ends of the link are in step exactly when fewer than sixteen
packets have been sent since the last report that started a cross-fade. -/
theorem deliver_inStep_iff (F : Gf16Arith) (env : Platform) (initialMode : FecMode)
    (windowSizes : FecMode → Option ℕ) (now : ℕ) (events : List LinkEvent) {outs : List Unit}
    (hrun : runAll (FecLink.step F env) (new initialMode windowSizes now) (events ++ [.deliver]) =
      .ok (outs, link)) :
    link.InStep ↔ ∀ n ∈ sentSinceChange (ModeManager.new initialMode windowSizes now) events, n < 16 := by
  have htracked := (tracked_new initialMode windowSizes now).run hrun
  rw [List.foldl_append] at htracked
  exact htracked.inStep_iff

theorem deliver_inStep_after_one : ∃ outs link,
    runAll (FecLink.step gf16Arith ⟨.scalar, 4⟩) (new .zero ModeManager.defaultTable 0)
      ([.report ⟨true, .keep, fun _ w => w, 0, 0⟩, .send ⟨0, some [1, 2, 3, 4], 4, true, none, 0⟩] ++
        [.deliver]) = .ok (outs, link) ∧ link.InStep := by
  obtain ⟨⟨outs, link⟩, hrun, -⟩ := exists_ok_of_any
    (x := runAll (FecLink.step gf16Arith ⟨.scalar, 4⟩) (new .zero ModeManager.defaultTable 0)
      ([.report ⟨true, .keep, fun _ w => w, 0, 0⟩, .send ⟨0, some [1, 2, 3, 4], 4, true, none, 0⟩] ++
        [.deliver])) (p := fun _ => true) (by decide +kernel)
  exact ⟨outs, link, hrun, (deliver_inStep_iff _ _ _ _ _ _ hrun).mpr (by decide +kernel)⟩

/-- After the thirty-two packets of a cross-fade the sender is done and the receiver is not. -/
theorem deliver_leaves_receiver_behind : ∃ outs link,
    runAll (FecLink.step gf16Arith ⟨.scalar, 4⟩) (new .zero (fun _ => some 33) 0)
      (.report ⟨true, .keep, fun _ w => w, 0, 0⟩ ::
        (List.range 32).map (fun i => .send ⟨i, some [1, 2, 3, 4], 4, true, none, 0⟩) ++ [.deliver]) =
      .ok (outs, link) ∧ link.sender.isTransitioning = false ∧ link.receiver.isTransitioning = true ∧
      ¬ link.InStep := by
  obtain ⟨⟨outs, link⟩, hrun, hlink⟩ := exists_ok_of_any
    (x := runAll (FecLink.step gf16Arith ⟨.scalar, 4⟩) (new .zero (fun _ => some 33) 0)
      (.report ⟨true, .keep, fun _ w => w, 0, 0⟩ ::
        (List.range 32).map (fun i => .send ⟨i, some [1, 2, 3, 4], 4, true, none, 0⟩) ++ [.deliver]))
    (p := fun r => decide (r.2.sender.isTransitioning = false ∧ r.2.receiver.isTransitioning = true ∧
      ¬ r.2.InStep)) (by decide +kernel)
  exact ⟨outs, link, hrun, of_decide_eq_true hlink⟩

end FecLink

end QuicFuscate.Fec
