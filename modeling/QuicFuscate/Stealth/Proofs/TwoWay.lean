import Mathlib.Logic.Function.Iterate
import Mathlib.Data.List.Basic
import QuicFuscate.Stealth.Proofs.SameManager

/-!
# Obfuscation over a two-way link

Each endpoint has one obfuscator for both directions, and every packet it sends or receives
advances the key.  A packet is therefore restored when its receiver has handled as many packets
as its sender had before it.
-/

namespace QuicFuscate.Stealth

open Framework Fec

inductive Side
  | a | b
  deriving DecidableEq, Repr

def Side.peer : Side → Side
  | .a => .b
  | .b => .a

/-- A packet in flight; `stamp` counts the packets its sender had handled before. -/
structure Flight where
  original : List UInt8
  wire : List UInt8
  stamp : ℕ
  deriving DecidableEq, Repr

/-- Two endpoints and the packets on their way to each of them, oldest first. -/
structure Link where
  manager : Side → StealthManager
  calls : Side → ℕ
  inFlight : Side → List Flight

structure Delivery where
  original : List UInt8
  restored : List UInt8
  deriving DecidableEq, Repr

inductive LinkEvent
  | send (sender : Side) (payload : List UInt8)
  | lose (receiver : Side) (i : ℕ)
  | deliver (receiver : Side)
  deriving DecidableEq, Repr

namespace Link

variable (sha256 : Sha256) (cpu : Side → CpuFeatures)

/-- Two endpoints with obfuscation enabled, whose obfuscators are in the same state. -/
def start (o : XorObfuscator) : Link := ⟨fun _ => ⟨true, some o⟩, fun _ => 0, fun _ => []⟩

def step (l : Link) : LinkEvent → Checked (Option Delivery × Link)
  | .send s payload => do
      let (wire, m) ← (l.manager s).processOutgoingPacket sha256 (cpu s) payload
      return (none,
        { manager := Function.update l.manager s m
          calls := Function.update l.calls s (l.calls s + 1)
          inFlight := Function.update l.inFlight s.peer
            (l.inFlight s.peer ++ [⟨payload, wire, l.calls s⟩]) })
  | .lose s i =>
      return (none, { l with inFlight := Function.update l.inFlight s ((l.inFlight s).eraseIdx i) })
  | .deliver s =>
      match l.inFlight s with
      | [] => return (none, l)
      | f :: rest => do
          let (restored, m) ← (l.manager s).processIncomingPacket sha256 (cpu s) f.wire
          return (some ⟨f.original, restored⟩,
            { manager := Function.update l.manager s m
              calls := Function.update l.calls s (l.calls s + 1)
              inFlight := Function.update l.inFlight s rest })

/-- A delivery comes in step when receiver and sender of the packet count alike. -/
def InStep (l : Link) : LinkEvent → Prop
  | .deliver s => ∀ f ∈ (l.inFlight s).head?, f.stamp = l.calls s
  | _ => True

def AllInStep : Link → List LinkEvent → Prop
  | _, [] => True
  | l, e :: es => l.InStep e ∧ ∀ d l', l.step sha256 cpu e = .ok (d, l') → AllInStep l' es

def after (o : XorObfuscator) (n : ℕ) : XorObfuscator := (XorObfuscator.next sha256)^[n] o

/-- The counters say how far the keys have moved, and the wire bytes which key masked them. -/
structure Tracked (o : XorObfuscator) (l : Link) : Prop where
  manager_eq : ∀ s, l.manager s = ⟨true, some (after sha256 o (l.calls s))⟩
  wire_eq : ∀ s, ∀ f ∈ l.inFlight s, f.wire = (after sha256 o f.stamp).mask f.original

variable {sha256 cpu} {o : XorObfuscator} {l : Link}

private theorem tracked_start (o : XorObfuscator) : Tracked sha256 o (start o) :=
  ⟨fun _ => rfl, by simp [start]⟩

private theorem after_succ (o : XorObfuscator) (n : ℕ) : (after sha256 o n).next sha256 = after sha256 o (n + 1) :=
  (Function.iterate_succ_apply' _ n o).symm

private theorem processOutgoingPacket_ok (h : Tracked sha256 o l) (s : Side) (payload : List UInt8) :
    (l.manager s).processOutgoingPacket sha256 (cpu s) payload =
      .ok ((after sha256 o (l.calls s)).mask payload, ⟨true, some (after sha256 o (l.calls s + 1))⟩) := by
  rw [h.manager_eq s, ← after_succ]
  exact StealthManager.processOutgoingPacket_enabled _ _ _ _

private theorem processIncomingPacket_ok (h : Tracked sha256 o l) (s : Side) (wire : List UInt8) :
    (l.manager s).processIncomingPacket sha256 (cpu s) wire =
      .ok ((after sha256 o (l.calls s)).mask wire, ⟨true, some (after sha256 o (l.calls s + 1))⟩) := by
  rw [h.manager_eq s, ← after_succ]
  exact StealthManager.processIncomingPacket_enabled _ _ _ _

private theorem manager_update (h : Tracked sha256 o l) (s t : Side) :
    Function.update l.manager s ⟨true, some (after sha256 o (l.calls s + 1))⟩ t =
      ⟨true, some (after sha256 o (Function.update l.calls s (l.calls s + 1) t))⟩ := by
  by_cases ht : t = s
  · subst ht
    simp
  · simp [ht, h.manager_eq t]

private theorem forall_mem_update {flights : Side → List Flight} {fs : List Flight} {P : Flight → Prop} {s : Side}
    (h : ∀ t, ∀ f ∈ flights t, P f) (hs : ∀ f ∈ fs, P f) :
    ∀ t, ∀ f ∈ Function.update flights s fs t, P f := by
  intro t
  by_cases ht : t = s
  · subst ht
    simpa using hs
  · simpa [ht] using h t

theorem Tracked.step (h : Tracked sha256 o l) (cpu : Side → CpuFeatures) {e : LinkEvent} (he : l.InStep e) :
    ∃ d l', l.step sha256 cpu e = .ok (d, l') ∧ Tracked sha256 o l' ∧
      ∀ x ∈ d, x.restored = x.original := by
  cases e with
  | send s payload =>
      refine ⟨none, _, by rw [Link.step, processOutgoingPacket_ok h]; rfl, ⟨manager_update h s, ?_⟩, by simp⟩
      refine forall_mem_update h.wire_eq fun f hf => ?_
      rcases List.mem_append.mp hf with hf | hf
      · exact h.wire_eq _ f hf
      · rw [List.mem_singleton.mp hf]
  | lose s i =>
      exact ⟨none, _, rfl, ⟨h.manager_eq, forall_mem_update h.wire_eq fun f hf =>
        h.wire_eq s f (List.mem_of_mem_eraseIdx hf)⟩, by simp⟩
  | deliver s =>
      rw [Link.step]
      split
      · exact ⟨none, l, rfl, h, by simp⟩
      · rename_i f rest hflight
        have hstamp : f.stamp = l.calls s := he f (by simp [hflight])
        have hwire := h.wire_eq s f (by simp [hflight])
        refine ⟨_, _, by rw [processIncomingPacket_ok h]; rfl, ⟨manager_update h s, ?_⟩, ?_⟩
        · exact forall_mem_update h.wire_eq fun g hg => h.wire_eq s g (by simp [hflight, hg])
        · intro x hx
          rw [← Option.some.inj hx]
          dsimp only
          rw [hwire, hstamp, XorObfuscator.mask_mask]

theorem Tracked.run (h : Tracked sha256 o l) {events : List LinkEvent} (he : AllInStep sha256 cpu l events) :
    ∃ outs l', runAll (Link.step sha256 cpu) l events = .ok (outs, l') ∧
      ∀ d, some d ∈ outs → d.restored = d.original := by
  induction events generalizing l with
  | nil => exact ⟨[], l, rfl, by simp⟩
  | cons e events ih =>
      obtain ⟨d, l', hstep, hl', hd⟩ := h.step cpu he.1
      obtain ⟨outs, l'', hrun, houts⟩ := ih hl' (he.2 d l' hstep)
      refine ⟨d :: outs, l'', runAll_cons hstep hrun, fun x hx => ?_⟩
      rcases List.mem_cons.mp hx with hx | hx
      · exact hd x hx.symm
      · exact houts x hx

/-- Every run whose deliveries all come in step restores every delivered payload. -/
theorem delivered_restored (o : XorObfuscator) (events : List LinkEvent)
    (h : AllInStep sha256 cpu (start o) events) :
    ∃ outs l, runAll (Link.step sha256 cpu) (start o) events = .ok (outs, l) ∧
      ∀ d, some d ∈ outs → d.restored = d.original :=
  (tracked_start o).run h

private theorem allInStep_cons {l' : Link} {d : Option Delivery} {e : LinkEvent} {es : List LinkEvent}
    (he : l.InStep e) (hstep : l.step sha256 cpu e = .ok (d, l')) (hes : AllInStep sha256 cpu l' es) :
    AllInStep sha256 cpu l (e :: es) := by
  refine ⟨he, fun d' l'' h => ?_⟩
  rw [hstep, Except.ok.injEq, Prod.mk.injEq] at h
  exact h.2 ▸ hes

theorem delivered_restored_request_response :
    ∃ outs l, runAll (Link.step StealthManager.digestOfZeros fun _ => ⟨false, false, false, false, false, false⟩)
        (start ⟨List.replicate 32 0, 0⟩) [.send .a [1, 2, 3], .deliver .b, .send .b [4], .deliver .a] = .ok (outs, l) ∧
      ∀ d, some d ∈ outs → d.restored = d.original := by
  refine delivered_restored _ _ (allInStep_cons trivial rfl (allInStep_cons ?_ rfl
    (allInStep_cons trivial rfl (allInStep_cons ?_ rfl trivial))))
  · rintro f hf
    rw [← Option.some.inj hf]
    rfl
  · rintro f hf
    rw [← Option.some.inj hf]
    rfl

/-- Two packets that cross each other: the first endpoint has moved to its second key when the
packet masked with the first key arrives. -/
theorem delivery_not_restored_crossing :
    ∃ l, runAll (Link.step StealthManager.digestOfZeros fun _ => ⟨false, false, false, false, false, false⟩)
        (start ⟨List.replicate 32 0, 0⟩) [.send .a [0], .send .b [0], .deliver .a] =
          .ok ([none, none, some ⟨[0], [102]⟩], l) ∧
      (StealthManager.digestOfZeros (List.replicate 32 0)).toList ≠ List.replicate 32 0 ∧
      (StealthManager.digestOfZeros (StealthManager.digestOfZeros (List.replicate 32 0)).toList).toList ≠
        (StealthManager.digestOfZeros (List.replicate 32 0)).toList :=
  ⟨_, rfl, by decide, by decide⟩

end Link

end QuicFuscate.Stealth
