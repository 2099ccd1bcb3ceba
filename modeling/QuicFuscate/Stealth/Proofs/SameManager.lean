import QuicFuscate.Stealth.Proofs.XorObfuscator

/-!
# Both directions on one manager

A manager replaces its key in every call, so that an incoming packet meets the key behind the one that
masked it.  The payload comes back as far as the two keys agree.
-/

namespace QuicFuscate.Stealth

open Framework Fec

inductive ManagerCall
  | outgoing (payload : List UInt8)
  | incoming (payload : List UInt8)
  | clientHello (payload : List UInt8)
  | payload (payload : List UInt8) (contextId : ℕ)
  deriving DecidableEq, Repr

namespace StealthManager

variable (sha256 : Sha256) (cpu : CpuFeatures)

def call (m : StealthManager) : ManagerCall → Checked (List UInt8 × StealthManager)
  | .outgoing payload => m.processOutgoingPacket sha256 cpu payload
  | .incoming payload => m.processIncomingPacket sha256 cpu payload
  | .clientHello payload => m.processClientHello sha256 cpu payload
  | .payload payload contextId => m.obfuscatePayload sha256 cpu payload contextId

def cycle (m : StealthManager) (payload : List UInt8) : Checked (List UInt8) := do
  let (wire, m) ← m.processOutgoingPacket sha256 cpu payload
  let (restored, _) ← m.processIncomingPacket sha256 cpu wire
  return restored

variable {sha256 cpu}

private theorem call_enabled (o : XorObfuscator) (c : ManagerCall) :
    ∃ out, (enabled o).call sha256 cpu c = .ok (out, enabled (o.next sha256)) := by
  cases c with
  | outgoing payload => exact ⟨_, processOutgoingPacket_enabled sha256 cpu o payload⟩
  | incoming payload => exact ⟨_, processIncomingPacket_enabled sha256 cpu o payload⟩
  | clientHello payload => exact ⟨_, processOutgoingPacket_enabled sha256 cpu o payload⟩
  | payload payload contextId => exact ⟨_, processOutgoingPacket_enabled sha256 cpu o payload⟩

private theorem run_enabled (o : XorObfuscator) (calls : List ManagerCall) :
    ∃ outs, runAll (call sha256 cpu) (enabled o) calls =
      .ok (outs, enabled (calls.foldl (fun o _ => o.next sha256) o)) := by
  induction calls generalizing o with
  | nil => exact ⟨[], rfl⟩
  | cons c calls ih =>
      obtain ⟨out, hcall⟩ := call_enabled o c
      obtain ⟨outs, hrun⟩ := ih (o.next sha256)
      exact ⟨out :: outs, runAll_cons hcall hrun⟩

private theorem cycle_enabled (o : XorObfuscator) (payload : List UInt8) :
    (enabled o).cycle sha256 cpu payload = .ok ((o.next sha256).mask (o.mask payload)) := by
  rw [cycle, processOutgoingPacket_enabled, ok_bind]
  dsimp only
  rw [processIncomingPacket_enabled, ok_bind]
  rfl

end StealthManager

private theorem xor_xor_eq_iff (b k k' : UInt8) : b ^^^ k ^^^ k' = b ↔ k = k' := by
  constructor
  · intro h
    have hcancel : k ^^^ k' = 0 := by
      rw [← UInt8.zero_xor (a := k ^^^ k'), ← UInt8.xor_self (a := b), UInt8.xor_assoc, ← UInt8.xor_assoc b k k', h]
    exact UInt8.xor_eq_zero_iff.mp hcancel
  · rintro rfl
    rw [UInt8.xor_assoc, UInt8.xor_self, UInt8.xor_zero]

private theorem masked_masked_eq_iff (key key' : List UInt8) (start start' : ℕ) (payload : List UInt8) :
    masked key' start' (masked key start payload) = payload ↔
      ∀ i < payload.length, keyByte key start i = keyByte key' start' i := by
  constructor
  · intro h i hi
    have hbyte := congrArg (fun xs => xs[i]?) h
    simp only [masked, List.getElem?_mapIdx, List.getElem?_eq_getElem hi, Option.map_some, Option.some.injEq] at hbyte
    exact (xor_xor_eq_iff _ _ _).mp hbyte
  · intro h
    apply List.ext_getElem
    · simp
    · intro i _ hi
      simp only [masked, List.getElem_mapIdx]
      exact (xor_xor_eq_iff _ _ _).mpr (h i hi)

namespace XorObfuscator

variable {sha256 : Sha256} {o : XorObfuscator}

/-- The key streams of two packets in a row agree on the first `n` bytes. -/
def Repeats (sha256 : Sha256) (o : XorObfuscator) (n : ℕ) : Prop :=
  o.key = [] ∨ ∀ i < n, keyByte o.key o.position i = keyByte (sha256 o.key).toList 0 i

private theorem next_mask_mask_iff (payload : List UInt8) :
    (o.next sha256).mask (o.mask payload) = payload ↔ o.Repeats sha256 payload.length := by
  unfold Repeats
  by_cases hkey : o.key = []
  · simp [mask, next, hkey]
  · have hdigest : (sha256 o.key).toList ≠ [] := by
      intro hnil
      have hlen := congrArg List.length hnil
      simp at hlen
    have hnext : o.next sha256 = ⟨(sha256 o.key).toList, 0⟩ := if_neg hkey
    have hmask : o.mask payload = masked o.key o.position payload := if_neg hkey
    rw [hnext, hmask, mask, if_neg hdigest, masked_masked_eq_iff]
    exact (or_iff_right hkey).symm

/-- A key of 32 bytes that is not its own digest does not agree with it on 32 bytes. -/
theorem Repeats.lt {n : ℕ} (h : o.Repeats sha256 n) (hlen : o.key.length = 32) (hpos : o.position = 0)
    (hfixed : (sha256 o.key).toList ≠ o.key) : n < 32 := by
  by_contra hn
  rcases h with hnil | hsame
  · rw [hnil] at hlen
    cases hlen
  · apply hfixed
    apply List.ext_getElem
    · rw [hlen, Vector.length_toList]
    · intro i hdigest hi
      have hbyte := hsame i (by omega)
      have hi' : i < 32 := by omega
      simp only [keyByte, hpos, Nat.zero_add, hlen, Vector.length_toList, Nat.mod_eq_of_lt hi'] at hbyte
      rw [List.getD_eq_getElem _ _ hi, List.getD_eq_getElem _ _ hdigest] at hbyte
      exact hbyte.symm

end XorObfuscator

namespace StealthManager

/-- After every history of calls, a payload that goes out and comes in on one manager is restored exactly
when the current key and its digest agree on as many bytes as it has; with a key of 32 bytes that is not
its own digest, never for 32 bytes or more. -/
theorem cycle_restores_iff (sha256 : Sha256) (cpu : CpuFeatures) (o : XorObfuscator) (calls : List ManagerCall) :
    ∃ outs o', runAll (call sha256 cpu) (enabled o) calls = .ok (outs, enabled o') ∧
      ∀ payload, ∃ restored, (enabled o').cycle sha256 cpu payload = .ok restored ∧
        (restored = payload ↔ o'.Repeats sha256 payload.length) ∧
        (o'.key.length = 32 → o'.position = 0 → (sha256 o'.key).toList ≠ o'.key → 32 ≤ payload.length →
          restored ≠ payload) := by
  obtain ⟨outs, hrun⟩ := @run_enabled sha256 cpu o calls
  refine ⟨outs, _, hrun, ?_⟩
  intro payload
  have hiff := @XorObfuscator.next_mask_mask_iff sha256 (calls.foldl (fun o _ => o.next sha256) o) payload
  refine ⟨_, cycle_enabled _ payload, hiff, ?_⟩
  intro hlen hpos hfixed hlong hrestored
  have hshort := (hiff.mp hrestored).lt hlen hpos hfixed
  omega

/-- SHA-256 at the key of 32 zeros and at the digest of that key. -/
def digestOfZeros (key : List UInt8) : Vector UInt8 32 :=
  if key = List.replicate 32 0 then
    #v[102, 104, 122, 173, 248, 98, 189, 119, 108, 143, 193, 139, 142, 159, 142, 32,
      8, 151, 20, 133, 110, 226, 51, 179, 144, 42, 89, 29, 13, 95, 41, 37]
  else
    #v[43, 50, 219, 108, 44, 10, 98, 53, 251, 19, 151, 232, 34, 94, 168, 94,
      15, 14, 110, 140, 123, 18, 109, 0, 22, 204, 189, 224, 230, 103, 21, 30]

theorem cycle_restores_iff_zeros :
    let m := enabled ⟨List.replicate 32 0, 0⟩
    let cpu : CpuFeatures := ⟨false, false, false, false, false, false⟩
    m.cycle digestOfZeros cpu [] = .ok [] ∧
      ∃ restored, m.cycle digestOfZeros cpu (List.replicate 32 7) = .ok restored ∧ restored ≠ List.replicate 32 7 := by
  intro m cpu
  obtain ⟨outs, o', hrun, hcycle⟩ := cycle_restores_iff digestOfZeros cpu ⟨List.replicate 32 0, 0⟩ []
  have ho : (⟨List.replicate 32 0, 0⟩ : XorObfuscator) = o' := by
    cases hrun
    rfl
  subst ho
  obtain ⟨restored, hrestored, hiff, -⟩ := hcycle []
  have hempty : restored = [] := hiff.mpr (.inr (by simp))
  obtain ⟨restored', hrestored', -, hlong⟩ := hcycle (List.replicate 32 7)
  exact ⟨hempty ▸ hrestored, restored', hrestored', hlong rfl rfl (by decide) (by decide)⟩

/-- With a key of zeros the payload `1 2 3 4` goes out as it is and comes back masked with the digest. -/
theorem cycle_not_restored :
    ∃ restored, (enabled ⟨List.replicate 32 0, 0⟩).cycle digestOfZeros ⟨false, false, false, false, false, false⟩
        [1, 2, 3, 4] = .ok restored ∧ restored = [103, 106, 121, 169] ∧ restored ≠ [1, 2, 3, 4] ∧
      (digestOfZeros (List.replicate 32 0)).toList ≠ List.replicate 32 0 ∧
      (digestOfZeros (digestOfZeros (List.replicate 32 0)).toList).toList ≠
        (digestOfZeros (List.replicate 32 0)).toList :=
  ⟨[103, 106, 121, 169], by decide +kernel, rfl, by decide, by decide, by decide⟩

end StealthManager

end QuicFuscate.Stealth
