import QuicFuscate.Core.Proofs.Connection

/-!
# Packet ids at the two ends of a link

Frames carry no id.  The sender numbers its packets with its counter, and the receiver numbers a frame
with its own counter, which counts the packets that it sends itself.  The two numbers of a packet agree
when the receiver has taken as many packets from its library as the sender had before that packet.
-/

namespace QuicFuscate.Core

open Framework Fec Stealth QuicFuscateConnection

/-- Two connections and the datagrams on their way from `a` to `b`, oldest first, each with the
number of packets that `a` had taken from its library before. -/
structure Joined where
  a : QuicFuscateConnection
  b : QuicFuscateConnection
  link : List (Datagram × ℕ)
  takenA : ℕ
  takenB : ℕ

structure Arrival where
  packet : Packet
  givenId : ℕ
  deriving DecidableEq, Repr

inductive JoinedEvent
  | sendA (input : SendInput)
  | sendB (input : SendInput)
  | deliver

def SendCall.taken (out : SendCall) : ℕ := if out.enqueued = [] then 0 else 1

namespace Joined

variable (hostA hostB : Host)

def start (a b : QuicFuscateConnection) : Joined := ⟨a, b, [], 0, 0⟩

def step (j : Joined) : JoinedEvent → Checked (Option Arrival × Joined)
  | .sendA input => do
      let (out, a) ← j.a.send hostA input
      return (none,
        { j with
          a := a
          link := j.link ++ out.datagram.toList.map fun d => (d, j.takenA)
          takenA := j.takenA + out.taken })
  | .sendB input => do
      let (out, b) ← j.b.send hostB input
      return (none, { j with b := b, takenB := j.takenB + out.taken })
  | .deliver =>
      match j.link with
      | [] => return (none, j)
      | (d, _) :: rest => do
          let (_, b) ← j.b.recv hostB ⟨d.bytes, .ok d.bytes⟩
          return (some ⟨d.packet, j.b.incomingId⟩, { j with b := b, link := rest })

/-- A source packet arrives in step when `b` has taken as many packets as `a` had before it. -/
def InStep (j : Joined) : JoinedEvent → Prop
  | .deliver => ∀ f ∈ j.link.head?, f.1.packet.isSystematic = true → f.2 = j.takenB
  | _ => True

def AllInStep : Joined → List JoinedEvent → Prop
  | _, [] => True
  | j, e :: es => ∀ x j', j.step hostA hostB e = .ok (x, j') → j.InStep e ∧ AllInStep j' es

/-- The arrivals of source packets have the id that their sender gave them. -/
def Agree (outs : List (Option Arrival)) : Prop :=
  ∀ x, some x ∈ outs → x.packet.isSystematic = true → x.givenId = x.packet.id

/-- The counters count the packets taken, ids are positions, and only repair packets wait. -/
structure Counted (j : Joined) : Prop where
  counterA : j.a.packetIdCounter = j.takenA
  counterB : j.b.packetIdCounter = j.takenB
  link_id : ∀ f ∈ j.link, f.1.packet.isSystematic = true → f.1.packet.id = f.2
  queueA : ∀ p ∈ j.a.outgoingFecPackets, p.isSystematic = false

variable {hostA hostB} {j j' : Joined} {x : Option Arrival}

private theorem send_counts {host : Host} {c c' : QuicFuscateConnection} {input : SendInput} {out : SendCall}
    (h : c.send host input = .ok (out, c')) :
    c'.packetIdCounter = c.packetIdCounter + out.taken ∧
      ((∀ p ∈ c.outgoingFecPackets, p.isSystematic = false) →
        (∀ p ∈ c'.outgoingFecPackets, p.isSystematic = false) ∧
        ∀ d ∈ out.datagram, d.packet.isSystematic = true → d.packet.id = c.packetIdCounter) := by
  have hpacket : ∀ {c₁ : QuicFuscateConnection} {p rest}, Transmits c₁ c' input out p rest →
      ∀ d ∈ out.datagram, d.packet = p := by
    intro c₁ p rest htrans d hd
    obtain ⟨len, hlen⟩ := htrans.datagram hd
    rcases transmit_cases hlen with ⟨-, e, he⟩ | ⟨-, len', bytes, hr, -⟩
    · cases he
    · cases hr
      rfl
  rcases send_cases h with ⟨-, -, hnone, henq, rfl⟩ | ⟨p, rest, hqueue, henq, htrans⟩ |
    ⟨-, bytes, c₁, fresh, repairs, -, -, henqueue, -, hfresh, hrepairs, henq, htrans⟩
  · refine ⟨by simp [SendCall.taken, henq], fun hq => ⟨hq, by simp [hnone]⟩⟩
  · have hc := htrans.1
    refine ⟨by simp [SendCall.taken, henq, hc], fun hq => ⟨?_, fun d hd hsys => ?_⟩⟩
    · intro q hmem
      rw [hc] at hmem
      exact hq q (by rw [hqueue]; exact List.mem_cons_of_mem p hmem)
    · rw [hpacket htrans d hd, hq p (by rw [hqueue]; exact List.mem_cons_self)] at hsys
      cases hsys
  · have hc := htrans.1
    refine ⟨?_, fun _ => ⟨?_, fun d hd _ => ?_⟩⟩
    · rw [hc, SendCall.taken, henq, if_neg (List.cons_ne_nil _ _)]
      exact (enqueue_cases henqueue).2.1
    · intro q hmem
      rw [hc] at hmem
      exact (hrepairs q hmem).isSystematic_eq
    · rw [hpacket htrans d hd, hfresh.id_eq]

private theorem counted_start (fecA fecB : AdaptiveFec) (stealthA stealthB : StealthManager) (xdpA xdpB : Bool) :
    Counted (start (.new fecA stealthA xdpA) (.new fecB stealthB xdpB)) :=
  ⟨rfl, rfl, by simp [start], by simp [start, QuicFuscateConnection.new]⟩

theorem Counted.step {e : JoinedEvent} (h : Counted j) (hstep : j.step hostA hostB e = .ok (x, j')) :
    Counted j' ∧ (Agree [x] ↔ j.InStep e) := by
  cases e with
  | sendA input =>
      rw [Joined.step, bind_eq_ok] at hstep
      obtain ⟨⟨out, a⟩, hsend, hstep⟩ := hstep
      cases hstep
      obtain ⟨hcounter, hrest⟩ := send_counts hsend
      obtain ⟨hqueue, hid⟩ := hrest h.queueA
      refine ⟨⟨?_, h.counterB, fun f hf => ?_, hqueue⟩, by simp [Agree, InStep]⟩
      · exact hcounter.trans (by rw [h.counterA])
      · rcases List.mem_append.mp hf with hf | hf
        · exact h.link_id f hf
        · obtain ⟨d, hd, rfl⟩ := List.mem_map.mp hf
          rw [← h.counterA]
          exact hid d (Option.mem_toList.mp hd)
  | sendB input =>
      rw [Joined.step, bind_eq_ok] at hstep
      obtain ⟨⟨out, b⟩, hsend, hstep⟩ := hstep
      cases hstep
      refine ⟨⟨h.counterA, ?_, h.link_id, h.queueA⟩, by simp [Agree, InStep]⟩
      exact (send_counts hsend).1.trans (by rw [h.counterB])
  | deliver =>
      rw [Joined.step] at hstep
      cases hlink : j.link with
      | nil =>
          rw [hlink] at hstep
          cases hstep
          exact ⟨h, by simp [Agree, InStep, hlink]⟩
      | cons f rest =>
          obtain ⟨d, stamp⟩ := f
          rw [hlink] at hstep
          dsimp only at hstep
          rw [bind_eq_ok] at hstep
          obtain ⟨⟨out, b⟩, hrecv, hstep⟩ := hstep
          cases hstep
          obtain ⟨-, hcounter, -⟩ := recv_keeps hrecv
          refine ⟨⟨h.counterA, hcounter.trans h.counterB, fun f hf => ?_, h.queueA⟩, ?_⟩
          · exact h.link_id f (by rw [hlink]; exact List.mem_cons_of_mem _ hf)
          · have hid := h.link_id (d, stamp) (by rw [hlink]; exact List.mem_cons_self)
            simp only [Agree, InStep, hlink, List.mem_singleton, Option.some.injEq, forall_eq, List.head?_cons,
              Option.mem_some_iff, forall_eq', incomingId, h.counterB]
            refine forall_congr' fun hsys => ?_
            rw [hid hsys]
            exact eq_comm

private theorem agree_cons (x : Option Arrival) (outs : List (Option Arrival)) :
    Agree (x :: outs) ↔ Agree [x] ∧ Agree outs := by
  constructor
  · intro h
    exact ⟨fun y hy => h y (by simp at hy; simp [hy]), fun y hy => h y (by simp [hy])⟩
  · rintro ⟨hx, houts⟩ y hy
    rcases List.mem_cons.mp hy with hy | hy
    · exact hx y (by simp [hy])
    · exact houts y hy

theorem Counted.run {events : List JoinedEvent} {outs : List (Option Arrival)} (h : Counted j)
    (hrun : runAll (Joined.step hostA hostB) j events = .ok (outs, j')) :
    Agree outs ↔ AllInStep hostA hostB j events := by
  induction events generalizing j outs with
  | nil =>
      cases hrun
      simp [Agree, AllInStep]
  | cons e events ih =>
      obtain ⟨x, j₁, outs', hstep, hrest, rfl⟩ := runAll_cons_eq_ok.mp hrun
      obtain ⟨h₁, hx⟩ := h.step hstep
      rw [agree_cons, hx, ih h₁ hrest]
      constructor
      · rintro ⟨hin, hall⟩ x' j'' hstep'
        rw [hstep, Except.ok.injEq, Prod.mk.injEq] at hstep'
        exact ⟨hin, hstep'.2 ▸ hall⟩
      · intro hall
        exact hall x j₁ hstep

/-- In every run of two new connections the ids agree exactly when every source packet arrives in
step. -/
theorem ids_agree_iff (hostA hostB : Host) (fecA fecB : AdaptiveFec) (stealthA stealthB : StealthManager)
    (xdpA xdpB : Bool) {events : List JoinedEvent} {outs : List (Option Arrival)} {j : Joined}
    (hrun : runAll (Joined.step hostA hostB) (start (.new fecA stealthA xdpA) (.new fecB stealthB xdpB)) events =
      .ok (outs, j)) :
    Agree outs ↔ AllInStep hostA hostB (start (.new fecA stealthA xdpA) (.new fecB stealthB xdpB)) events :=
  (counted_start fecA fecB stealthA stealthB xdpA xdpB).run hrun

def sampleInput : SendInput := ⟨List.replicate 8 0, .ok [7, 9], .ok ()⟩

theorem ids_agree_iff_alternating :
    AllInStep smallHost smallHost (start (plainConnection false) (plainConnection false))
      [.sendA sampleInput, .deliver, .sendB sampleInput, .sendA sampleInput, .deliver] := by
  obtain ⟨outs, j, hrun, houts⟩ : ∃ outs j, runAll (Joined.step smallHost smallHost)
      (start (plainConnection false) (plainConnection false))
      [.sendA sampleInput, .deliver, .sendB sampleInput, .sendA sampleInput, .deliver] = .ok (outs, j) ∧
      outs = [none, some ⟨firstPacket, 0⟩, none, none, some ⟨{ firstPacket with id := 1 }, 1⟩] := ⟨_, _, rfl, rfl⟩
  refine (ids_agree_iff _ _ _ _ _ _ _ _ hrun).mp ?_
  rw [houts]
  rintro x hx -
  simp only [List.mem_cons, Option.some.injEq, reduceCtorEq, List.not_mem_nil, false_or, or_false] at hx
  rcases hx with rfl | rfl <;> rfl

/-- Two packets from `a` to a silent `b` get the same id. -/
theorem ids_disagree_silent_peer : ∃ outs j, runAll (Joined.step smallHost smallHost)
    (start (plainConnection false) (plainConnection false))
    [.sendA sampleInput, .sendA sampleInput, .deliver, .deliver] = .ok (outs, j) ∧
    outs = [none, none, some ⟨firstPacket, 0⟩, some ⟨{ firstPacket with id := 1 }, 0⟩] ∧ ¬ Agree outs := by
  refine ⟨_, _, rfl, rfl, fun h => ?_⟩
  exact absurd (h ⟨{ firstPacket with id := 1 }, 0⟩ (by decide) rfl) (by decide)

end Joined

end QuicFuscate.Core
