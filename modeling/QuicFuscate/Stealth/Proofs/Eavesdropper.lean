import QuicFuscate.Stealth.Proofs.SameManager

/-!
# Reading along

Every key is the digest of the one before, and the key is as long as the digest.  Who knows the first
32 bytes of one packet has its key, and with it every key that follows.
-/

namespace QuicFuscate.Stealth

open Framework Fec

/-- A packet with both of its sides, as a call of a manager turns one into the other. -/
structure Exchange where
  plain : List UInt8
  wire : List UInt8
  deriving DecidableEq, Repr

def ManagerCall.exchange (c : ManagerCall) (out : List UInt8) : Exchange :=
  match c with
  | .incoming wire => ⟨out, wire⟩
  | .outgoing plain | .clientHello plain | .payload plain _ => ⟨plain, out⟩

def exchanges (calls : List ManagerCall) (outs : List (List UInt8)) : List Exchange :=
  List.zipWith ManagerCall.exchange calls outs

/-! ## The observer -/

/-- The key of a packet, from the plain bytes the observer knows and the bytes on the wire. -/
def stolenKey (known wire : List UInt8) : List UInt8 := List.zipWith (· ^^^ ·) known wire

/-- What an observer with the key of the first packet makes of the wire. -/
def eavesdrop (sha256 : Sha256) : List UInt8 → List (List UInt8) → List (List UInt8)
  | _, [] => []
  | key, wire :: wires => masked key 0 wire :: eavesdrop sha256 (sha256 key).toList wires

private theorem stolenKey_masked {key plain : List UInt8} (hlen : key.length ≤ plain.length) :
    stolenKey (plain.take key.length) (masked key 0 plain) = key := by
  apply List.ext_getElem
  · simp [stolenKey, hlen]
  · intro i _ hi
    simp only [stolenKey, masked, keyByte, List.getElem_zipWith, List.getElem_take, List.getElem_mapIdx,
      Nat.zero_add, Nat.mod_eq_of_lt hi]
    rw [← UInt8.xor_assoc, UInt8.xor_self, UInt8.zero_xor, List.getD_eq_getElem _ _ hi]

namespace StealthManager

variable {sha256 : Sha256} {cpu : CpuFeatures}

private theorem call_exchange (o : XorObfuscator) (c : ManagerCall) :
    ∃ out, (enabled o).call sha256 cpu c = .ok (out, enabled (o.next sha256)) ∧
      (c.exchange out).wire = o.mask (c.exchange out).plain := by
  cases c with
  | outgoing payload => exact ⟨_, processOutgoingPacket_enabled sha256 cpu o payload, rfl⟩
  | incoming payload =>
      exact ⟨_, processIncomingPacket_enabled sha256 cpu o payload, (o.mask_mask payload).symm⟩
  | clientHello payload => exact ⟨_, processOutgoingPacket_enabled sha256 cpu o payload, rfl⟩
  | payload payload contextId => exact ⟨_, processOutgoingPacket_enabled sha256 cpu o payload, rfl⟩

private theorem run_eavesdropped (key : Vector UInt8 32) (calls : List ManagerCall) :
    ∃ outs m, runAll (call sha256 cpu) (enabled ⟨key.toList, 0⟩) calls = .ok (outs, m) ∧
      eavesdrop sha256 key.toList ((exchanges calls outs).map Exchange.wire) =
        (exchanges calls outs).map Exchange.plain ∧
      ∀ k e, (exchanges calls outs)[k]? = some e → 32 ≤ e.plain.length →
        eavesdrop sha256 (stolenKey (e.plain.take 32) e.wire) (((exchanges calls outs).drop k).map Exchange.wire) =
          ((exchanges calls outs).drop k).map Exchange.plain := by
  induction calls generalizing key with
  | nil =>
      refine ⟨[], _, rfl, rfl, ?_⟩
      intro k e he
      cases he
  | cons c calls ih =>
      have hkey : key.toList ≠ [] := by
        intro hnil
        have hlen := congrArg List.length hnil
        simp at hlen
      have hmask : ∀ payload, (⟨key.toList, 0⟩ : XorObfuscator).mask payload = masked key.toList 0 payload :=
        fun payload => if_neg hkey
      have hnext : (⟨key.toList, 0⟩ : XorObfuscator).next sha256 = ⟨(sha256 key.toList).toList, 0⟩ := if_neg hkey
      obtain ⟨out, hcall, hwire⟩ := @call_exchange sha256 cpu ⟨key.toList, 0⟩ c
      obtain ⟨outs, m, hrun, hreads, hlater⟩ := ih (sha256 key.toList)
      rw [hnext] at hcall
      rw [hmask] at hwire
      have hall : eavesdrop sha256 key.toList ((exchanges (c :: calls) (out :: outs)).map Exchange.wire) =
          (exchanges (c :: calls) (out :: outs)).map Exchange.plain := by
        show masked key.toList 0 (c.exchange out).wire :: eavesdrop sha256 _ _ = _
        rw [hwire, masked_masked]
        exact congrArg _ hreads
      refine ⟨out :: outs, m, runAll_cons hcall hrun, hall, ?_⟩
      intro k e he hlen
      cases k with
      | zero =>
          -- the packet whose front is known is the first one: its key is the manager's
          have hfirst : c.exchange out = e := Option.some.inj he
          have hstolen : stolenKey (e.plain.take 32) e.wire = key.toList := by
            have h := @stolenKey_masked key.toList e.plain (by simpa using hlen)
            rw [← hfirst, hwire, hfirst]
            simpa using h
          rw [hstolen]
          exact hall
      | succ k => exact hlater k e he hlen

/-- Over every run of a manager, in both directions and on every processor, who sees the wire and knows the
first 32 bytes of one packet reads that packet and all that follow, without the key. -/
theorem known_front_opens_rest (sha256 : Sha256) (cpu : CpuFeatures) (key : Vector UInt8 32)
    (calls : List ManagerCall) :
    ∃ outs m, runAll (call sha256 cpu) (enabled ⟨key.toList, 0⟩) calls = .ok (outs, m) ∧
      ∀ k e, (exchanges calls outs)[k]? = some e → 32 ≤ e.plain.length →
        eavesdrop sha256 (stolenKey (e.plain.take 32) e.wire) (((exchanges calls outs).drop k).map Exchange.wire) =
          ((exchanges calls outs).drop k).map Exchange.plain := by
  obtain ⟨outs, m, hrun, -, hopened⟩ := @run_eavesdropped sha256 cpu key calls
  exact ⟨outs, m, hrun, hopened⟩

/-- A packet of zeros goes out, and a packet of which nothing is known comes in. -/
def zerosThenSecret : List ManagerCall := [.outgoing (List.replicate 32 0), .incoming [1, 2, 3]]

theorem known_front_opens_rest_secret : ∃ outs m,
    runAll (call (fun _ => Vector.replicate 32 7) ⟨false, false, false, false, false, false⟩)
        (enabled ⟨(Vector.replicate 32 3).toList, 0⟩) zerosThenSecret = .ok (outs, m) ∧
      eavesdrop (fun _ => Vector.replicate 32 7) (stolenKey (List.replicate 32 0) (List.replicate 32 3))
        [List.replicate 32 3, [1, 2, 3]] = [List.replicate 32 0, [6, 5, 4]] := by
  obtain ⟨outs, m, hrun, hopened⟩ := known_front_opens_rest (fun _ => Vector.replicate 32 7)
    ⟨false, false, false, false, false, false⟩ (Vector.replicate 32 3) zerosThenSecret
  have houts : outs = [List.replicate 32 3, [6, 5, 4]] := (Prod.mk.inj (Except.ok.inj hrun)).1.symm
  refine ⟨outs, m, hrun, ?_⟩
  rw [houts] at hopened
  exact hopened 0 ⟨List.replicate 32 0, List.replicate 32 3⟩ rfl le_rfl

end StealthManager

end QuicFuscate.Stealth
