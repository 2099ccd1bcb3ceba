import QuicFuscate.Fec.Proofs.Encoder
import Mathlib.Data.Nat.ModEq

/-!
# Coefficients along the sliding window

The encoder counts columns by window position, the decoder by packet id modulo `k`.  After `m`
source packets the two agree on every window content exactly when the window starts at a multiple
of `k`.
-/

namespace QuicFuscate.Fec

open Framework

def slotPacket (window : List Packet) (k c : ℕ) : Option Packet :=
  window.find? fun p => p.id % k = c

def slotByte (window : List Packet) (k c j : ℕ) : UInt8 :=
  ((slotPacket window k c).map fun p => p.byteAt j).getD 0

def Packet.coeffAt (p : Packet) (c : ℕ) : UInt8 := (p.coefficients.getD []).getD c 0

/-- The payload is the combination of the window's packets by decoder slot. -/
def SlotEquation (policy : SimdPolicy) (window : List Packet) (k : ℕ) (p : Packet) : Prop :=
  ∀ j < p.len, p.byteAt j = (List.range k).foldl
    (fun acc c => acc ^^^ gfMul policy (p.coeffAt c) (slotByte window k c j)) 0

instance (policy : SimdPolicy) (window : List Packet) (k : ℕ) (p : Packet) :
    Decidable (SlotEquation policy window k p) :=
  inferInstanceAs (Decidable (∀ j < p.len, _))

/-- Equally long source packets with consecutive ids from zero. -/
structure SourceRun (blockSize len : ℕ) (ps : List Packet) : Prop where
  id_eq : ∀ i (h : i < ps.length), ps[i].id = i
  source : ∀ p ∈ ps, SourceOk blockSize len p

/-- The encoder after a run of source packets. -/
def encoderAfter (k n : ℕ) (ps : List Packet) : Encoder :=
  ps.foldl Encoder.addSourcePacket (Encoder.new k n)

theorem encoderAfter_eq {k n : ℕ} (hk : 1 ≤ k) (ps : List Packet) :
    encoderAfter k n ps = ⟨k, n, ps.drop (ps.length - k)⟩ := by
  rw [encoderAfter, foldl_addSourcePacket]
  exact congrArg (Encoder.mk k n) (foldl_pushBounded hk ps)

private theorem generateRepairPacket_of_short {env : Platform} {k n r : ℕ} (hk : 1 ≤ k)
    {ps : List Packet} (h : ps.length < k) :
    (encoderAfter k n ps).generateRepairPacket env r = .ok none := by
  rw [encoderAfter_eq hk, Encoder.generateRepairPacket,
    if_pos (by simp only [List.length_drop]; omega)]
  rfl

private theorem generateRepairPacket_of_run {env : Platform} {k n r len : ℕ} (hk : 1 ≤ k)
    (hr : k + r ≤ 255) (hblock : k ≤ env.blockSize) {ps : List Packet}
    (hrun : SourceRun env.blockSize len ps) (h : k ≤ ps.length) :
    (encoderAfter k n ps).generateRepairPacket env r = .ok (some
      (repairPacket env (ps.drop (ps.length - k)) (ps.length - 1) k len r)) := by
  have hpos : ps.length - 1 < ps.length := by omega
  have hlast : (ps.drop (ps.length - k)).getLast? = some ps[ps.length - 1] := by
    rw [List.getLast?_drop, if_neg (by omega), List.getLast?_eq_getElem?,
      List.getElem?_eq_getElem hpos]
  have hsrc : ∀ p ∈ ps.drop (ps.length - k), SourceOk env.blockSize len p :=
    fun p hp => hrun.source p (List.mem_of_mem_drop hp)
  have hgen := generateRepairPacket_ok (e := ⟨k, n, ps.drop (ps.length - k)⟩) (r := r)
    (by simp only [List.length_drop]; omega) hlast hsrc (pointsDistinct_of_le hr) hblock
  rw [encoderAfter_eq hk, hgen, hrun.id_eq]

/-! ## Slots and positions -/

private theorem emitted_coeffAt {env : Platform} {window : List Packet} {i k len r c : ℕ}
    (hc : c < k) :
    (repairPacket env window i k len r).coeffAt c = (cauchyRow k r).getD c 0 := by
  simp [repairPacket, Packet.coeffAt, List.getElem?_append_left, hc]

private theorem slotPacket_of_run {B len k q : ℕ} {ps : List Packet} (hrun : SourceRun B len ps)
    (hk : k ≤ ps.length) (hq : q < k) :
    slotPacket (ps.drop (ps.length - k)) k ((ps.length + q) % k) =
      some (ps[ps.length - k + q]) := by
  rw [slotPacket, List.find?_eq_some_iff_getElem]
  have hid : ∀ i (h : i < (ps.drop (ps.length - k)).length),
      (ps.drop (ps.length - k))[i].id = ps.length - k + i := by
    intro i h
    rw [List.length_drop] at h
    rw [List.getElem_drop, hrun.id_eq]
  have hmod : ∀ i, (ps.length - k + i) % k = (ps.length + i) % k := by
    intro i
    rw [← Nat.add_mod_right (ps.length - k + i) k]
    congr 1
    omega
  have hlen : q < (ps.drop (ps.length - k)).length := by rw [List.length_drop]; omega
  refine ⟨?_, q, hlen, List.getElem_drop, ?_⟩
  · rw [hrun.id_eq, hmod]
    simp
  · intro i hi
    rw [hid, hmod]
    have hne : (ps.length + i) % k ≠ (ps.length + q) % k := by
      intro heq
      have hsame := Nat.ModEq.add_left_cancel' ps.length heq
      rw [Nat.ModEq, Nat.mod_eq_of_lt (by omega), Nat.mod_eq_of_lt hq] at hsame
      omega
    simpa using hne

private theorem gray_fold : ∀ a < 256, (foldProduct (clmul (UInt8.ofNat a) 1)) ^^^
    ((foldProduct (clmul (UInt8.ofNat a) 1)) >>> 1) = UInt8.ofNat a := by
  decide +kernel

theorem gfMul_one_injective (policy : SimdPolicy) :
    Function.Injective fun a => gfMul policy a 1 := by
  have hfold : Function.Injective fun a : UInt8 => foldProduct (clmul a 1) := by
    intro a b hab
    have ha := gray_fold a.toNat a.toNat_lt
    have hb := gray_fold b.toNat b.toNat_lt
    rw [UInt8.ofNat_toNat] at ha hb
    simp only at hab
    rw [← ha, ← hb, hab]
  have htable : Function.Injective fun a : UInt8 => gfMulTable a 1 := by
    intro a b hab
    have hmk := congrArg GF256.mk hab
    simp only [GF256.mk_gfMulTable, GF256.mk_one, mul_one] at hmk
    exact GF256.mk_injective hmk
  cases policy with
  | avx512 | avx2 | sse2 | neon => exact hfold
  | pclmulqdq | scalar => exact htable

private theorem cauchyRow_injective {k r a b : ℕ} (h : PointsDistinct k r) (hk : k ≤ 256) (ha : a < k)
    (hb : b < k) (heq : (cauchyRow k r).getD a 0 = (cauchyRow k r).getD b 0) : a = b := by
  have hmk := congrArg GF256.mk heq
  rw [mk_cauchyRow h ha, mk_cauchyRow h hb, inv_inj, sub_left_inj] at hmk
  have hmod := ofNat_byte_eq_iff.mp (GF256.mk_injective hmk)
  omega

private theorem slotEquation_of_dvd {env : Platform} {k len r : ℕ} {ps : List Packet}
    (hrun : SourceRun env.blockSize len ps) (hk : k ≤ ps.length) (hdvd : k ∣ ps.length)
    (hlen : len ≤ env.blockSize) :
    SlotEquation env.policy (ps.drop (ps.length - k)) k
      (repairPacket env (ps.drop (ps.length - k)) (ps.length - 1) k len r) := by
  intro j hj
  have hslot : ∀ c < k, slotByte (ps.drop (ps.length - k)) k c j =
      sourceByte (ps.drop (ps.length - k)) c j := by
    intro c hc
    have hmod : (ps.length + c) % k = c := by
      rw [Nat.add_mod, Nat.mod_eq_zero_of_dvd hdvd, Nat.zero_add, Nat.mod_mod,
        Nat.mod_eq_of_lt hc]
    have hfind := slotPacket_of_run hrun hk hc
    rw [hmod] at hfind
    rw [slotByte, hfind, sourceByte_of_lt (by rw [List.length_drop]; omega), List.getElem_drop]
    rfl
  have hj : j < len := hj
  rw [byteAt_repairPacket hlen, if_pos hj, combinedByte]
  apply List.foldl_ext
  intro acc c hc
  have hck : c < k := List.mem_range.mp hc
  rw [gfMulAdd, emitted_coeffAt hck, hslot c hck, UInt8.xor_comm]

/-! ## A window that tells positions and slots apart -/

/-- One-byte packets, all zero except the one at the front of the window. -/
private def probePacket (blockSize m k i : ℕ) : Packet :=
  ⟨i, some ((if i = m - k then 1 else 0) :: List.replicate (blockSize - 1) 0), 1, true, none, 0⟩

private def probeRun (blockSize m k : ℕ) : List Packet :=
  (List.range m).map (probePacket blockSize m k)

private theorem probeRun_ok {blockSize m k : ℕ} (h : 1 ≤ blockSize) :
    SourceRun blockSize 1 (probeRun blockSize m k) where
  id_eq := by
    intro i hi
    simp [probeRun, probePacket]
  source := by
    intro p hp
    obtain ⟨i, -, rfl⟩ := List.mem_map.mp hp
    exact ⟨rfl, ⟨_, rfl, by simp; omega⟩, h⟩

private theorem foldl_xor_single {g : ℕ → UInt8} (c₀ : ℕ) (h : ∀ c, c ≠ c₀ → g c = 0) (n : ℕ) :
    (List.range n).foldl (fun acc c => acc ^^^ g c) 0 = if c₀ < n then g c₀ else 0 := by
  induction n with
  | zero => simp
  | succ n ih =>
      rw [List.range_succ, List.foldl_append, ih, List.foldl_cons, List.foldl_nil]
      by_cases hn : n = c₀
      · subst hn
        simp
      · have hiff : c₀ < n + 1 ↔ c₀ < n := by omega
        simp [hiff, h n hn]

private theorem exists_position {m k c : ℕ} (hc : c < k) : ∃ q < k, (m + q) % k = c := by
  refine ⟨(c + (k - m % k)) % k, Nat.mod_lt _ (by omega), ?_⟩
  have hlt := Nat.mod_lt m (by omega : k > 0)
  have hsum : m + (c + (k - m % k)) = c + k * (m / k + 1) := by
    have hdiv := Nat.div_add_mod m k
    rw [Nat.mul_add, Nat.mul_one]
    omega
  rw [Nat.add_mod_mod, hsum, Nat.add_mul_mod_self_left, Nat.mod_eq_of_lt hc]

private theorem probe_slotByte {B m k c : ℕ} (hB : 1 ≤ B) (hk : k ≤ m) (hc : c < k) :
    slotByte ((probeRun B m k).drop (m - k)) k c 0 = if c = m % k then 1 else 0 := by
  obtain ⟨q, hq, hmod⟩ := exists_position (m := m) hc
  have hlen : (probeRun B m k).length = m := by simp [probeRun]
  have hfind := slotPacket_of_run (probeRun_ok (m := m) (k := k) hB) (hlen.symm ▸ hk) hq
  simp only [hlen, hmod] at hfind
  have hiff : q = 0 ↔ c = m % k := by
    constructor
    · rintro rfl
      exact hmod.symm
    · intro h
      have hsame : m + q ≡ m + 0 [MOD k] := by rw [Nat.ModEq, hmod, h, Nat.add_zero]
      have hq0 := Nat.ModEq.add_left_cancel' m hsame
      rwa [Nat.ModEq, Nat.mod_eq_of_lt hq, Nat.zero_mod] at hq0
  rw [slotByte, hfind]
  simp [Packet.byteAt, probeRun, probePacket, hiff]

private theorem probe_sourceByte {B m k c : ℕ} (hk : k ≤ m) (hc : c < k) :
    sourceByte ((probeRun B m k).drop (m - k)) c 0 = if c = 0 then 1 else 0 := by
  have hlt : c < ((probeRun B m k).drop (m - k)).length := by simp [probeRun]; omega
  rw [sourceByte_of_lt hlt]
  simp [Packet.byteAt, probeRun, probePacket]

private theorem not_slotEquation_probe {env : Platform} {m k r : ℕ} (hk : k ≤ m) (hk1 : 1 ≤ k)
    (hdvd : ¬ k ∣ m) (hr : k + r ≤ 255) (hB : 1 ≤ env.blockSize) :
    ¬ SlotEquation env.policy ((probeRun env.blockSize m k).drop (m - k)) k
      (repairPacket env ((probeRun env.blockSize m k).drop (m - k)) (m - 1) k 1 r) := by
  intro h
  have h0 := h 0 (by decide : 0 < 1)
  have hmod : m % k < k := Nat.mod_lt _ (by omega)
  rw [byteAt_repairPacket hB, if_pos Nat.zero_lt_one] at h0
  have hleft : combinedByte env.policy (cauchyRow k r)
      ((probeRun env.blockSize m k).drop (m - k)) k 0 =
      gfMul env.policy ((cauchyRow k r).getD 0 0) 1 := by
    have hterms : combinedByte env.policy (cauchyRow k r)
        ((probeRun env.blockSize m k).drop (m - k)) k 0 =
        (List.range k).foldl (fun acc c => acc ^^^
          gfMul env.policy ((cauchyRow k r).getD c 0) (if c = 0 then 1 else 0)) 0 := by
      apply List.foldl_ext
      intro acc c hc
      rw [gfMulAdd, probe_sourceByte hk (List.mem_range.mp hc), UInt8.xor_comm]
    rw [hterms, foldl_xor_single 0 (fun c hc => by simp [hc]), if_pos (by omega)]
    simp
  have hright : (List.range k).foldl (fun acc c => acc ^^^ gfMul env.policy
      ((repairPacket env ((probeRun env.blockSize m k).drop (m - k)) (m - 1) k 1 r).coeffAt c)
      (slotByte ((probeRun env.blockSize m k).drop (m - k)) k c 0)) 0 =
      gfMul env.policy ((cauchyRow k r).getD (m % k) 0) 1 := by
    have hterms : (List.range k).foldl (fun acc c => acc ^^^ gfMul env.policy
        ((repairPacket env ((probeRun env.blockSize m k).drop (m - k)) (m - 1) k 1 r).coeffAt c)
        (slotByte ((probeRun env.blockSize m k).drop (m - k)) k c 0)) 0 =
        (List.range k).foldl (fun acc c => acc ^^^
          gfMul env.policy ((cauchyRow k r).getD c 0) (if c = m % k then 1 else 0)) 0 := by
      apply List.foldl_ext
      intro acc c hc
      have hck : c < k := List.mem_range.mp hc
      rw [emitted_coeffAt hck, probe_slotByte hB hk hck]
    rw [hterms, foldl_xor_single (m % k) (fun c hc => by simp [hc]), if_pos hmod]
    simp
  rw [hleft, hright] at h0
  have hcol := cauchyRow_injective (pointsDistinct_of_le hr) (by omega) (by omega) hmod
    (gfMul_one_injective env.policy h0)
  exact hdvd (Nat.dvd_of_mod_eq_zero hcol.symm)

/-- After `m` source packets, every repair packet the encoder can emit satisfies the slot equation,
whatever the packets hold, exactly when the window has not filled yet or `m` is a multiple of
`k`. -/
theorem repairPacket_slotEquation_iff (env : Platform) {k n r m : ℕ} (hk : 1 ≤ k)
    (hr : k + r ≤ 255) (hblock : k ≤ env.blockSize) :
    (∀ (len : ℕ) (ps : List Packet), SourceRun env.blockSize len ps → ps.length = m → ∀ p,
      (encoderAfter k n ps).generateRepairPacket env r = .ok (some p) →
        SlotEquation env.policy (encoderAfter k n ps).sourceWindow k p) ↔ m < k ∨ k ∣ m := by
  constructor
  · intro h
    by_contra hcon
    rw [not_or, Nat.not_lt] at hcon
    have hlen : (probeRun env.blockSize m k).length = m := by simp [probeRun]
    have hrun := probeRun_ok (m := m) (k := k) (hk.trans hblock)
    have hemit := generateRepairPacket_of_run (n := n) hk hr hblock hrun (hlen.symm ▸ hcon.1)
    have heq := h 1 _ hrun hlen _ hemit
    rw [encoderAfter_eq hk, hlen] at heq
    exact not_slotEquation_probe hcon.1 hk hcon.2 hr (hk.trans hblock) heq
  · rintro hm len ps hrun rfl p hp
    by_cases hshort : ps.length < k
    · rw [generateRepairPacket_of_short hk hshort] at hp
      simp at hp
    · have hfull := Nat.not_lt.mp hshort
      have hsrc := hrun.source ps[0] (List.getElem_mem (by omega))
      rw [generateRepairPacket_of_run hk hr hblock hrun hfull, Except.ok.injEq,
        Option.some.injEq] at hp
      rw [encoderAfter_eq hk, ← hp]
      exact slotEquation_of_dvd hrun hfull (hm.resolve_left hshort) hsrc.len_le

theorem repairPacket_slotEquation_iff_four_two :
    1 ≤ 2 ∧ 2 + 0 ≤ 255 ∧ ∀ (len : ℕ) (ps : List Packet), SourceRun 8 len ps → ps.length = 4 →
      ∀ p, (encoderAfter 2 4 ps).generateRepairPacket ⟨.scalar, 8⟩ 0 = .ok (some p) →
        SlotEquation .scalar (encoderAfter 2 4 ps).sourceWindow 2 p :=
  ⟨by decide, by decide, (repairPacket_slotEquation_iff ⟨.scalar, 8⟩ (n := 4) (r := 0) (m := 4)
    (by decide) (by decide) (by decide)).mpr (by decide)⟩

/-- Three packets through a window of two: the repair packet of the second window position belongs
to the first slot. -/
theorem repairPacket_slotEquation_fails_at_three :
    ¬ ∀ p, (encoderAfter 2 4 [⟨0, some [1, 0], 1, true, none, 0⟩, ⟨1, some [2, 0], 1, true, none, 0⟩,
        ⟨2, some [3, 0], 1, true, none, 0⟩]).generateRepairPacket ⟨.scalar, 2⟩ 0 = .ok (some p) →
      SlotEquation .scalar (encoderAfter 2 4 [⟨0, some [1, 0], 1, true, none, 0⟩,
        ⟨1, some [2, 0], 1, true, none, 0⟩, ⟨2, some [3, 0], 1, true, none, 0⟩]).sourceWindow 2 p := by
  intro h
  have hp := h (repairPacket ⟨.scalar, 2⟩ [⟨1, some [2, 0], 1, true, none, 0⟩,
    ⟨2, some [3, 0], 1, true, none, 0⟩] 2 2 1 0) (by decide +kernel)
  revert hp
  decide +kernel

end QuicFuscate.Fec
