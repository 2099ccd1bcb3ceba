import QuicFuscate.Fec.Encoder
import QuicFuscate.Fec.Proofs.GaloisField

/-!
# What the encoders emit

A full window yields, for every repair index whose evaluation point differs from all window
positions, one packet with a Cauchy row and the combination of the window's bytes; a coinciding
point asks for the inverse of zero.
-/

namespace QuicFuscate.Fec

open Framework

def Packet.byteAt (p : Packet) (j : ℕ) : UInt8 := (p.data.getD []).getD j 0

structure SourceOk (blockSize len : ℕ) (p : Packet) : Prop where
  len_eq : p.len = len
  data_eq : ∃ d, p.data = some d ∧ d.length = blockSize
  len_le : len ≤ blockSize

structure InBlock (blockSize : ℕ) (p : Packet) : Prop where
  data_eq : ∃ d, p.data = some d ∧ d.length = blockSize
  len_le : p.len ≤ blockSize

theorem SourceOk.inBlock {blockSize len : ℕ} {p : Packet} (h : SourceOk blockSize len p) :
    InBlock blockSize p :=
  ⟨h.data_eq, h.len_eq.trans_le h.len_le⟩

def sourceByte (window : List Packet) (c j : ℕ) : UInt8 :=
  (window[c]?.map fun p => p.byteAt j).getD 0

theorem sourceByte_of_lt {window : List Packet} {c : ℕ} (hc : c < window.length) (j : ℕ) :
    sourceByte window c j = window[c].byteAt j := by
  simp [sourceByte, hc]

/-! ## The window -/

theorem foldl_addSourcePacket (e : Encoder) (ps : List Packet) :
    ps.foldl Encoder.addSourcePacket e =
      { e with sourceWindow := ps.foldl (pushBounded e.k) e.sourceWindow } := by
  induction ps generalizing e with
  | nil => rfl
  | cons p ps ih => rw [List.foldl_cons, ih]; rfl

/-! ## Coefficients -/

def PointsDistinct (k r : ℕ) : Prop := ∀ i < k, UInt8.ofNat i ≠ UInt8.ofNat (k + r)

instance (k r : ℕ) : Decidable (PointsDistinct k r) :=
  inferInstanceAs (Decidable (∀ i < k, UInt8.ofNat i ≠ UInt8.ofNat (k + r)))

theorem ofNat_byte_eq_iff {a b : ℕ} : UInt8.ofNat a = UInt8.ofNat b ↔ a % 256 = b % 256 := by
  rw [← UInt8.toNat_inj, UInt8.toNat_ofNat', UInt8.toNat_ofNat']

theorem pointsDistinct_of_le {k r : ℕ} (h : k + r ≤ 255) : PointsDistinct k r := by
  intro i hi heq
  rw [ofNat_byte_eq_iff] at heq
  omega

def cauchyRow (k r : ℕ) : List UInt8 :=
  (List.range k).map fun i =>
    expTable (255 - (logTable (UInt8.ofNat i ^^^ UInt8.ofNat (k + r))).toNat)

@[simp] theorem cauchyRow_length (k r : ℕ) : (cauchyRow k r).length = k := by simp [cauchyRow]

theorem mk_cauchyRow {k r : ℕ} (h : PointsDistinct k r) {i : ℕ} (hi : i < k) :
    GF256.mk ((cauchyRow k r).getD i 0) =
      (GF256.mk (UInt8.ofNat i) - GF256.mk (UInt8.ofNat (k + r)))⁻¹ := by
  have hne : UInt8.ofNat i ^^^ UInt8.ofNat (k + r) ≠ 0 := by
    rw [Ne, UInt8.xor_eq_zero_iff]
    exact h i hi
  obtain ⟨c, hc, hmk⟩ := GF256.gfInv_of_ne hne
  rw [gfInv, if_neg hne, Except.ok.injEq] at hc
  rw [GF256.sub_eq_add, ← GF256.mk_xor, ← hmk, ← hc, List.getD_eq_getElem _ _ (by simpa using hi)]
  simp [cauchyRow]

theorem cauchyRow_ne_zero {k r : ℕ} (h : PointsDistinct k r) {i : ℕ} (hi : i < k) :
    (cauchyRow k r).getD i 0 ≠ 0 := by
  intro hzero
  have hmk := mk_cauchyRow h hi
  rw [hzero] at hmk
  have hne : GF256.mk (UInt8.ofNat i) - GF256.mk (UInt8.ofNat (k + r)) ≠ 0 :=
    sub_ne_zero.mpr fun heq => h i hi (GF256.mk_injective heq)
  exact inv_ne_zero hne hmk.symm

private theorem gfInvPrefetch_eq {a : UInt8} (h : a ≠ 0) :
    gfInvPrefetch a = .ok (expTable (255 - (logTable a).toNat)) := by
  rw [gfInvPrefetch, gfInv, if_neg h]

theorem generateCauchyCoefficients_ok {e : Encoder} {r : ℕ} (h : PointsDistinct e.k r) :
    e.generateCauchyCoefficients r = .ok (cauchyRow e.k r) := by
  rw [Encoder.generateCauchyCoefficients]
  by_cases hk : e.k = 0
  · rw [if_pos hk, cauchyRow, hk]
    rfl
  rw [if_neg hk]
  apply loopTo_eq (fun i => (cauchyRow e.k r).take i) rfl
  · intro i hi
    have hne : UInt8.ofNat i ^^^ UInt8.ofNat (e.k + r) ≠ 0 := by
      rw [Ne, UInt8.xor_eq_zero_iff]
      exact h i hi
    rw [gfInvPrefetch_eq hne, ok_bind, List.take_succ_eq_append_getElem (by simpa using hi)]
    simp [cauchyRow]
  · rw [List.take_of_length_le (by simp)]

private theorem generateCauchyCoefficients_error {e : Encoder} {r : ℕ} (h : ¬ PointsDistinct e.k r) :
    e.generateCauchyCoefficients r = .error .inverseOfZero := by
  have hex : ∃ i, i < e.k ∧ UInt8.ofNat i = UInt8.ofNat (e.k + r) := by
    simpa [PointsDistinct] using h
  obtain ⟨hi, heq⟩ := Nat.find_spec hex
  rw [Encoder.generateCauchyCoefficients, if_neg (by omega)]
  apply loopTo_error (fun _ _ => True) hi trivial
  · intro j coeffs hj _
    have hne : UInt8.ofNat j ^^^ UInt8.ofNat (e.k + r) ≠ 0 := by
      rw [Ne, UInt8.xor_eq_zero_iff]
      exact fun hj' => Nat.find_min hex hj ⟨hj.trans hi, hj'⟩
    exact ⟨_, by rw [gfInvPrefetch_eq hne, ok_bind]; rfl, trivial⟩
  · intro coeffs _
    rw [heq, UInt8.xor_self]
    rfl

/-! ## Repair packets -/

def combinedByte (policy : SimdPolicy) (coeffs : List UInt8) (window : List Packet) (k j : ℕ) :
    UInt8 :=
  (List.range k).foldl
    (fun acc c => gfMulAdd policy (coeffs.getD c 0) (sourceByte window c j) acc) 0

def repairPayload (env : Platform) (coeffs : List UInt8) (window : List Packet) (k len : ℕ) :
    List UInt8 :=
  (List.range env.blockSize).map fun j =>
    if j < len then combinedByte env.policy coeffs window k j else 0

@[simp] theorem repairPayload_length (env : Platform) (coeffs : List UInt8)
    (window : List Packet) (k len : ℕ) :
    (repairPayload env coeffs window k len).length = env.blockSize := by
  simp [repairPayload]

def repairPacket (env : Platform) (window : List Packet) (lastId k len r : ℕ) : Packet where
  id := lastId + 1 + r
  data := some (repairPayload env (cauchyRow k r) window k len)
  len := len
  isSystematic := false
  coefficients := some (cauchyRow k r ++ env.alloc.drop k)
  coeffLen := k

theorem byteAt_repairPacket {env : Platform} {window : List Packet} {id k len r : ℕ}
    (hlen : len ≤ env.blockSize) (j : ℕ) :
    (repairPacket env window id k len r).byteAt j =
      if j < len then combinedByte env.policy (cauchyRow k r) window k j else 0 := by
  by_cases hj : j < env.blockSize
  · simp [Packet.byteAt, repairPacket, repairPayload, hj]
  · have hlen : ¬ j < len := by omega
    simp [Packet.byteAt, repairPacket, repairPayload, hj, hlen]

private theorem accumulate_ok (env : Platform) (coeff : UInt8) {src rd : List UInt8} {len : ℕ}
    (hsrc : len ≤ src.length) (hrd : len ≤ rd.length) :
    Encoder.accumulate env coeff src len rd = .ok (rd.mapIdx fun j x =>
      if j < len then gfMulAdd env.policy coeff (src.getD j 0) x else x) := by
  rw [Encoder.accumulate, unrolledTo_eq,
    loopTo_map (fun j x => gfMulAdd env.policy coeff (src.getD j 0) x)
      (fun j x ys hj hlen hx => by
        rw [readAt_getD (by omega) 0, ok_bind, readAt_eq_ok.mpr hx, ok_bind,
          writeAt_of_lt (by omega)]) hrd]

private theorem accumulateLoop_ok {env : Platform} {e : Encoder} {coeffs : List UInt8} {len : ℕ}
    (hsrc : ∀ p ∈ e.sourceWindow, InBlock env.blockSize p) (hcover : ∀ p ∈ e.sourceWindow, len ≤ p.len)
    (hcoeffs : coeffs.length = e.sourceWindow.length) (hlen : len ≤ env.blockSize) :
    loopTo e.sourceWindow.length env.alloc (e.addSource env coeffs len) =
      .ok (repairPayload env coeffs e.sourceWindow e.sourceWindow.length len) := by
  have hstep : ∀ i < e.sourceWindow.length,
      e.addSource env coeffs len i (repairPayload env coeffs e.sourceWindow i len) =
        .ok (repairPayload env coeffs e.sourceWindow (i + 1) len) := by
    intro i hi
    have hnext : ∀ j, combinedByte env.policy coeffs e.sourceWindow (i + 1) j =
        gfMulAdd env.policy (coeffs.getD i 0) (sourceByte e.sourceWindow i j)
          (combinedByte env.policy coeffs e.sourceWindow i j) := by
      intro j
      rw [combinedByte, List.range_succ, List.foldl_append]
      rfl
    rw [Encoder.addSource, readAt_getD (by omega) 0, ok_bind]
    by_cases hzero : coeffs.getD i 0 = 0
    · rw [if_pos hzero]
      simp only [repairPayload, hnext, hzero, gfMulAdd, gfMul_zero, UInt8.zero_xor, pure_eq_ok]
    · have hi_ok := hsrc e.sourceWindow[i] (List.getElem_mem hi)
      obtain ⟨d, hd, hdlen⟩ := hi_ok.data_eq
      have hown : len ≤ e.sourceWindow[i].len := hcover _ (List.getElem_mem hi)
      have hle := hi_ok.len_le
      have hslice : sliceOf d 0 e.sourceWindow[i].len = .ok (d.take e.sourceWindow[i].len) :=
        sliceOf_of_le (Nat.zero_le _) (by omega)
      have htake : len ≤ (d.take e.sourceWindow[i].len).length := by
        rw [List.length_take_of_le (by omega)]
        exact hown
      have hacc := accumulate_ok env (coeffs.getD i 0) htake
        ((repairPayload_length env coeffs e.sourceWindow i len).symm ▸ hlen)
      rw [if_neg hzero, readAt_of_lt hi, ok_bind, hd, expectSome, ok_bind, hslice, ok_bind, hacc]
      apply congrArg Except.ok
      apply List.ext_getElem
      · simp [repairPayload]
      · intro j h1 h2
        by_cases hj : j < len
        · simp [repairPayload, hj, hnext, sourceByte_of_lt hi, Packet.byteAt, hd,
            List.getElem?_take, Nat.lt_of_lt_of_le hj hown]
        · simp [repairPayload, hj]
  have hstart : repairPayload env coeffs e.sourceWindow 0 len = env.alloc := by
    apply List.ext_getElem
    · simp [repairPayload]
    · intro j h1 h2
      simp [repairPayload, combinedByte, Platform.alloc]
  exact loopTo_eq (fun i => repairPayload env coeffs e.sourceWindow i len) hstart hstep rfl

theorem generateRepairPacket_covered {env : Platform} {e : Encoder} {r : ℕ} {first last : Packet}
    (hfull : e.sourceWindow.length = e.k) (hfirst : e.sourceWindow[0]? = some first)
    (hlast : e.sourceWindow.getLast? = some last) (hsrc : ∀ p ∈ e.sourceWindow, InBlock env.blockSize p)
    (hcover : ∀ p ∈ e.sourceWindow, first.len ≤ p.len) (hpoints : PointsDistinct e.k r)
    (hblock : e.k ≤ env.blockSize) :
    e.generateRepairPacket env r =
      .ok (some (repairPacket env e.sourceWindow last.id e.k first.len r)) := by
  have hfirst_ok := hsrc first (List.mem_of_getElem? hfirst)
  have hcopy : copyFront env.alloc (cauchyRow e.k r) = _ :=
    copyFront_of_le (by simpa using hblock)
  rw [Encoder.generateRepairPacket, if_neg (by omega), readAt_eq_ok.mpr hfirst, ok_bind,
    generateCauchyCoefficients_ok hpoints, ok_bind,
    accumulateLoop_ok hsrc hcover (by simp [hfull]) hfirst_ok.len_le, ok_bind, hcopy, ok_bind, hlast,
    expectSome, ok_bind]
  simp [repairPacket, hfull]

theorem generateRepairPacket_ok {env : Platform} {e : Encoder} {len r : ℕ} {last : Packet}
    (hfull : e.sourceWindow.length = e.k) (hlast : e.sourceWindow.getLast? = some last)
    (hsrc : ∀ p ∈ e.sourceWindow, SourceOk env.blockSize len p) (hpoints : PointsDistinct e.k r)
    (hblock : e.k ≤ env.blockSize) :
    e.generateRepairPacket env r =
      .ok (some (repairPacket env e.sourceWindow last.id e.k len r)) := by
  have hpos : 0 < e.sourceWindow.length := by
    cases h : e.sourceWindow with
    | nil => simp [h] at hlast
    | cons p ps => simp
  have hfirst := hsrc e.sourceWindow[0] (List.getElem_mem hpos)
  rw [generateRepairPacket_covered hfull (List.getElem?_eq_getElem hpos) hlast (fun p hp => (hsrc p hp).inBlock)
    (fun p hp => (hfirst.len_eq.trans (hsrc p hp).len_eq.symm).le) hpoints hblock, hfirst.len_eq]

private theorem addSource_length {env : Platform} {e : Encoder} {coeffs rd rd' : List UInt8}
    {len i : ℕ} (h : e.addSource env coeffs len i rd = .ok rd') : rd'.length = rd.length := by
  rw [Encoder.addSource, bind_eq_ok] at h
  obtain ⟨coeff, -, h⟩ := h
  split at h
  · rw [← Except.ok.inj h]
  · simp only [bind_eq_ok] at h
    obtain ⟨sp, -, data, -, src, -, h⟩ := h
    rw [Encoder.accumulate, unrolledTo_eq] at h
    refine loopTo_keeps (fun xs => xs.length = rd.length) h rfl fun j u u' hu hstep => ?_
    simp only [bind_eq_ok] at hstep
    obtain ⟨x, -, y, -, hstep⟩ := hstep
    exact (writeAt_length hstep).trans hu

theorem generateRepairPacket_shape {env : Platform} {e : Encoder} {r : ℕ} {p : Packet}
    (hfull : e.sourceWindow.length = e.k) (hk : 1 ≤ e.k) (hpoints : PointsDistinct e.k r)
    (h : e.generateRepairPacket env r = .ok (some p)) :
    e.k ≤ env.blockSize ∧ p.isSystematic = false ∧
      p.coefficients = some (cauchyRow e.k r ++ env.alloc.drop e.k) ∧ p.coeffLen = e.k ∧
      ∃ d, p.data = some d ∧ d.length = env.blockSize := by
  rw [Encoder.generateRepairPacket, if_neg (by omega), readAt_of_lt (by omega), ok_bind,
    generateCauchyCoefficients_ok hpoints, ok_bind] at h
  simp only [bind_eq_ok] at h
  obtain ⟨rd, hloop, block, hcopy, last, -, h⟩ := h
  have hlen : rd.length = env.blockSize :=
    loopTo_keeps (fun xs => xs.length = env.blockSize) hloop env.alloc_length
      fun i u u' hu hstep => (addSource_length hstep).trans hu
  have hblock : e.k ≤ env.blockSize := by
    by_contra hcon
    rw [copyFront, if_neg (by simpa using hcon)] at hcopy
    simp at hcopy
  rw [copyFront_of_le (by simpa using hblock), Except.ok.injEq, cauchyRow_length] at hcopy
  simp only [pure_eq_ok, Except.ok.injEq, Option.some.injEq] at h
  subst h
  exact ⟨hblock, rfl, by rw [hcopy], cauchyRow_length _ _, rd, rfl, hlen⟩

theorem generateRepairPacket_error {env : Platform} {e : Encoder} {r : ℕ}
    (hfull : e.sourceWindow.length = e.k) (hk : 1 ≤ e.k) (hpoints : ¬ PointsDistinct e.k r) :
    e.generateRepairPacket env r = .error .inverseOfZero := by
  rw [Encoder.generateRepairPacket, if_neg (by omega), readAt_of_lt (by omega), ok_bind,
    generateCauchyCoefficients_error hpoints, error_bind]

end QuicFuscate.Fec
