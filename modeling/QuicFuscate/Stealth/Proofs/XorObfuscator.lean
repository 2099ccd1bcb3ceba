import QuicFuscate.Stealth.XorObfuscator

/-!
# The obfuscation stream

Every path masks the payload with the same key stream, so two obfuscators in one state stay in
one state and undo each other.
-/

namespace QuicFuscate.Stealth

open Framework Fec

def keyByte (key : List UInt8) (start i : ℕ) : UInt8 := key.getD ((start + i) % key.length) 0

def masked (key : List UInt8) (start : ℕ) (payload : List UInt8) : List UInt8 :=
  payload.mapIdx fun i b => b ^^^ keyByte key start i

@[simp] theorem masked_length (key : List UInt8) (start : ℕ) (payload : List UInt8) :
    (masked key start payload).length = payload.length :=
  List.length_mapIdx

theorem masked_masked (key : List UInt8) (start : ℕ) (payload : List UInt8) :
    masked key start (masked key start payload) = payload := by
  apply List.ext_getElem
  · simp
  · intro i h1 h2
    simp only [masked, List.getElem_mapIdx]
    rw [UInt8.xor_assoc, UInt8.xor_self, UInt8.xor_zero]

variable {key : List UInt8} {start : ℕ}

private theorem readAt_key (hkey : key ≠ []) (i : ℕ) :
    readAt key ((start + i) % key.length) = .ok (keyByte key start i) :=
  readAt_getD (Nat.mod_lt _ (List.length_pos_iff.mpr hkey)) 0

private theorem xorByte_ok (hkey : key ≠ []) {i : ℕ} {b : UInt8} {payload : List UInt8}
    (hi : payload[i]? = some b) :
    xorByte key start i payload = .ok (payload.set i (b ^^^ keyByte key start i)) := by
  have hlt := (List.getElem?_eq_some_iff.mp hi).1
  rw [xorByte, readAt_eq_ok.mpr hi, ok_bind, readAt_key hkey, ok_bind, writeAt_of_lt hlt]

private theorem keyPattern_ok (hkey : key ≠ []) (chunkSize processed : ℕ) :
    keyPattern key start chunkSize processed =
      .ok ((List.range chunkSize).map fun i => keyByte key start (processed + i)) := by
  rw [keyPattern, loopTo_map (fun i _ => keyByte key start (processed + i)) _ (by simp)]
  · refine congrArg Except.ok (List.ext_getElem (by simp) fun i h1 h2 => ?_)
    have hi : i < chunkSize := by simpa using h2
    simp [hi]
  · intro i x ys hi hlen _
    rw [Nat.add_assoc, readAt_key hkey, ok_bind, writeAt_of_lt (by simpa [hlen] using hi)]

def maskedTo (key : List UInt8) (start n : ℕ) (payload : List UInt8) : List UInt8 :=
  payload.mapIdx fun i b => if i < n then b ^^^ keyByte key start i else b

private theorem maskedTo_length (n : ℕ) (payload : List UInt8) :
    (maskedTo key start n payload).length = payload.length :=
  List.length_mapIdx

private theorem maskedTo_zero (payload : List UInt8) : maskedTo key start 0 payload = payload :=
  List.ext_getElem (maskedTo_length 0 payload) fun i h1 h2 => by simp [maskedTo]

private theorem copyAt_chunk {n chunkSize : ℕ} {payload : List UInt8} (hn : n + chunkSize ≤ payload.length) :
    copyAt (maskedTo key start n payload) n
        (List.zipWith (· ^^^ ·) (((maskedTo key start n payload).take (n + chunkSize)).drop n)
          ((List.range chunkSize).map fun i => keyByte key start (n + i))) =
      .ok (maskedTo key start (n + chunkSize) payload) := by
  have hlen : (List.zipWith (· ^^^ ·) (((maskedTo key start n payload).take (n + chunkSize)).drop n)
      ((List.range chunkSize).map fun i => keyByte key start (n + i))).length = chunkSize := by
    simp [maskedTo_length]
    omega
  rw [copyAt_of_le (by rw [hlen, maskedTo_length]; exact hn), hlen, List.append_assoc]
  refine congrArg Except.ok (List.ext_getElem ?_ fun i h1 h2 => ?_)
  · simp [maskedTo_length]
    omega
  · have hi : i < payload.length := by simpa [maskedTo_length] using h2
    rcases Nat.lt_or_ge i n with hlt | hge
    · rw [List.getElem_append_left (by simp [maskedTo_length]; omega), List.getElem_take]
      simp [maskedTo, hlt, Nat.lt_add_right chunkSize hlt]
    · rw [List.getElem_append_right (by simp [maskedTo_length]; omega)]
      have htake : ((maskedTo key start n payload).take n).length = n := by simp [maskedTo_length]; omega
      rcases Nat.lt_or_ge i (n + chunkSize) with hlt | hge'
      · rw [List.getElem_append_left (by rw [htake, hlen]; omega)]
        simp only [htake, List.getElem_zipWith, List.getElem_drop, List.getElem_take, List.getElem_map,
          List.getElem_range, Nat.add_sub_cancel' hge]
        simp [maskedTo, hlt, Nat.not_lt.mpr hge]
      · rw [List.getElem_append_right (by rw [htake, hlen]; omega), List.getElem_drop]
        have hidx : n + chunkSize + (i - n - chunkSize) = i := by omega
        simp only [htake, hlen, hidx]
        simp [maskedTo, Nat.not_lt.mpr hge, Nat.not_lt.mpr hge']

private theorem xorChunks_ok (hkey : key ≠ []) (chunkSize : ℕ) (payload : List UInt8) :
    xorChunks key start chunkSize payload =
      .ok (payload.length / chunkSize * chunkSize,
        maskedTo key start (payload.length / chunkSize * chunkSize) payload) := by
  apply loopTo_eq (fun c => (c * chunkSize, maskedTo key start (c * chunkSize) payload)) _ _ rfl
  · rw [Nat.zero_mul, maskedTo_zero]
  · intro c hc
    have hle : c * chunkSize + chunkSize ≤ payload.length := by
      have hmul := Nat.mul_le_mul_right chunkSize (Nat.succ_le_of_lt hc)
      rw [Nat.succ_mul] at hmul
      exact hmul.trans (Nat.div_mul_le_self _ _)
    simp only [keyPattern_ok hkey, ok_bind]
    rw [sliceOf_of_le (by omega) (by rw [maskedTo_length]; exact hle), ok_bind, copyAt_chunk hle, ok_bind,
      Nat.succ_mul]
    rfl

private theorem xorVector_ok (hkey : key ≠ []) (chunkSize : ℕ) (payload : List UInt8) :
    xorVector key start chunkSize payload = .ok (masked key start payload) := by
  rw [xorVector, xorChunks_ok hkey, ok_bind]
  simp only
  rw [loopFromTo_map (fun i b => b ^^^ keyByte key start i)
    (fun i b ys _ _ _ hi => xorByte_ok hkey hi) le_rfl]
  refine congrArg Except.ok (List.ext_getElem (by simp [maskedTo_length]) fun i h1 h2 => ?_)
  have hi : i < payload.length := by simpa using h2
  rcases Nat.lt_or_ge i (payload.length / chunkSize * chunkSize) with hlt | hge
  · simp [masked, maskedTo, hlt, Nat.not_le.mpr hlt]
  · simp [masked, maskedTo, hge, hi, Nat.not_lt.mpr hge]

private theorem xorPayload_ok (hkey : key ≠ []) (policy : SimdPolicy) (payload : List UInt8) :
    xorPayload policy key start payload = .ok (masked key start payload) := by
  have hscalar : loopTo payload.length payload (xorByte key start) = .ok (masked key start payload) := by
    rw [loopTo_map (fun i b => b ^^^ keyByte key start i) (fun i b ys _ _ hi => xorByte_ok hkey hi) le_rfl]
    refine congrArg Except.ok (List.ext_getElem (by simp) fun i h1 h2 => ?_)
    have hi : i < payload.length := by simpa using h2
    simp [masked, hi]
  cases policy with
  | avx512 => exact xorVector_ok hkey 32 payload
  | avx2 => exact xorVector_ok hkey 32 payload
  | neon => exact xorVector_ok hkey 16 payload
  | sse2 => exact hscalar
  | pclmulqdq => exact hscalar
  | scalar => exact hscalar

/-! ## Streams -/

namespace XorObfuscator

variable (sha256 : Sha256) (cpu cpu' : CpuFeatures)

def mask (o : XorObfuscator) (payload : List UInt8) : List UInt8 :=
  if o.key = [] then payload else masked o.key o.position payload

def next (o : XorObfuscator) : XorObfuscator :=
  if o.key = [] then o else ⟨(sha256 o.key).toList, 0⟩

theorem mask_mask (o : XorObfuscator) (payload : List UInt8) : o.mask (o.mask payload) = payload := by
  unfold mask
  split
  · rfl
  · exact masked_masked _ _ _

private theorem obfuscate_ok (o : XorObfuscator) (payload : List UInt8) :
    o.obfuscate sha256 cpu payload = .ok (o.mask payload, o.next sha256) := by
  unfold obfuscate mask next
  by_cases hkey : o.key = []
  · simp [hkey]
  · simp [hkey, xorPayload_ok hkey]

def obfuscateNext (o : XorObfuscator) (payload : List UInt8) :
    Checked ((List UInt8 × List UInt8) × XorObfuscator) := do
  let (payload, o) ← o.obfuscate sha256 cpu payload
  return ((payload, o.key), o)

def deobfuscateNext (o : XorObfuscator) (payload : List UInt8) :
    Checked ((List UInt8 × List UInt8) × XorObfuscator) := do
  let (payload, o) ← o.deobfuscate sha256 cpu payload
  return ((payload, o.key), o)

private theorem obfuscateNext_ok (o : XorObfuscator) (payload : List UInt8) :
    o.obfuscateNext sha256 cpu payload = .ok ((o.mask payload, (o.next sha256).key), o.next sha256) := by
  rw [obfuscateNext, obfuscate_ok]
  rfl

private theorem deobfuscateNext_ok (o : XorObfuscator) (payload : List UInt8) :
    o.deobfuscateNext sha256 cpu payload = .ok ((o.mask payload, (o.next sha256).key), o.next sha256) := by
  rw [deobfuscateNext, deobfuscate, obfuscate_ok]
  rfl

/-- Two obfuscators that start in one state restore each other's streams and hold the same key
after every packet, whatever processors they run on. -/
theorem stream_roundTrip (o : XorObfuscator) (payloads : List (List UInt8)) :
    ∃ sent received o₁ o₂,
      runAll (obfuscateNext sha256 cpu) o payloads = .ok (sent, o₁) ∧
      runAll (deobfuscateNext sha256 cpu') o (sent.map Prod.fst) = .ok (received, o₂) ∧
      received.map Prod.fst = payloads ∧ received.map Prod.snd = sent.map Prod.snd := by
  induction payloads generalizing o with
  | nil => exact ⟨[], [], o, o, rfl, rfl, rfl, rfl⟩
  | cons payload payloads ih =>
      obtain ⟨sent, received, o₁, o₂, hsent, hreceived, hpayloads, hkeys⟩ := ih (o.next sha256)
      refine ⟨_, _, o₁, o₂, runAll_cons (obfuscateNext_ok sha256 cpu o payload) hsent,
        runAll_cons (deobfuscateNext_ok sha256 cpu' o _) hreceived, ?_, ?_⟩
      · rw [List.map_cons, hpayloads, mask_mask]
      · rw [List.map_cons, List.map_cons, hkeys]

end XorObfuscator

/-! ## The manager -/

def StealthManager.enabled (o : XorObfuscator) : StealthManager := ⟨true, some o⟩

theorem StealthManager.processOutgoingPacket_enabled (sha256 : Sha256) (cpu : CpuFeatures) (o : XorObfuscator)
    (payload : List UInt8) :
    (enabled o).processOutgoingPacket sha256 cpu payload = .ok (o.mask payload, enabled (o.next sha256)) := by
  simp only [enabled, processOutgoingPacket, XorObfuscator.obfuscate_ok]
  rfl

theorem StealthManager.processIncomingPacket_enabled (sha256 : Sha256) (cpu : CpuFeatures) (o : XorObfuscator)
    (payload : List UInt8) :
    (enabled o).processIncomingPacket sha256 cpu payload = .ok (o.mask payload, enabled (o.next sha256)) := by
  simp only [enabled, processIncomingPacket, XorObfuscator.deobfuscate, XorObfuscator.obfuscate_ok]
  rfl

end QuicFuscate.Stealth
