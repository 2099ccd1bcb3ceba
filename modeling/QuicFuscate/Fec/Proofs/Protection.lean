import QuicFuscate.Fec.Proofs.Encoder16

/-!
# What the window keeps and what a repair packet protects

The encoders test for a full window by equality, so a window of no places grows with every packet.
A repair packet takes its length from the first packet of the window: longer packets lose their
tails, a shorter packet aborts the byte encoder and adds the rest of its block in the word encoder,
whose loop also leaves a trailing odd byte out.
-/

namespace QuicFuscate.Fec

open Framework

/-! ## The window -/

def lastPackets (k : ℕ) (ps : List Packet) : List Packet := ps.drop (ps.length - min k ps.length)

private theorem lastPackets_zero (ps : List Packet) : lastPackets 0 ps = [] := by
  simp [lastPackets]

private theorem lastPackets_eq {k : ℕ} (ps : List Packet) : lastPackets k ps = ps.drop (ps.length - k) := by
  rw [lastPackets]
  congr 1
  omega

/-- A window is the last `k` packets exactly when it has a place or nothing was added. -/
private theorem foldl_pushBounded_eq_lastPackets_iff (k : ℕ) (ps : List Packet) :
    ps.foldl (pushBounded k) [] = lastPackets k ps ↔ 1 ≤ k ∨ ps = [] := by
  by_cases hk : 1 ≤ k
  · rw [foldl_pushBounded hk, lastPackets_eq]
    exact ⟨fun _ => .inl hk, fun _ => rfl⟩
  · obtain rfl : k = 0 := by omega
    have hall : ps.foldl (pushBounded 0) [] = ps := foldl_pushBounded_zero ps
    rw [hall, lastPackets_zero]
    simp

/-- The window of both encoders after a run of source packets. -/
theorem sourceWindow_eq_lastPackets_iff (k n : ℕ) (ps : List Packet) :
    ((ps.foldl Encoder.addSourcePacket (.new k n)).sourceWindow = lastPackets k ps ∧
      (ps.foldl Encoder16.addSourcePacket (.new k n)).sourceWindow = lastPackets k ps) ↔ 1 ≤ k ∨ ps = [] := by
  rw [foldl_addSourcePacket, foldl_addSourcePacket16]
  exact (and_self_iff).trans (foldl_pushBounded_eq_lastPackets_iff k ps)

/-- Without a place the window keeps the packets it is given. -/
theorem sourceWindow_grows_without_places :
    let ps : List Packet := [⟨0, some [1], 1, true, none, 0⟩, ⟨1, some [2], 1, true, none, 0⟩]
    (ps.foldl Encoder.addSourcePacket (.new 0 0)).sourceWindow ≠ lastPackets 0 ps ∧
      (ps.foldl Encoder16.addSourcePacket (.new 0 0)).sourceWindow ≠ lastPackets 0 ps ∧
      (ps.foldl Encoder.addSourcePacket (.new 0 0)).sourceWindow.length = 2 := by
  decide

/-! ## What should be protected -/

def Packet.padded (p : Packet) : Packet :=
  { p with data := p.data.map (·.mapIdx fun j x => if j < p.len then x else 0) }

def Packet.stale (p : Packet) : Packet :=
  { p with data := p.data.map (·.mapIdx fun j x => if j < p.len then 0 else x) }

private theorem byteAt_padded (p : Packet) (j : ℕ) : p.padded.byteAt j = if j < p.len then p.byteAt j else 0 := by
  cases hd : p.data with
  | none => simp [Packet.byteAt, Packet.padded, hd]
  | some d =>
      by_cases hj : j < d.length
      · simp [Packet.byteAt, Packet.padded, hd, hj]
      · simp [Packet.byteAt, Packet.padded, hd, hj]

private theorem byteAt_stale (p : Packet) (j : ℕ) : p.stale.byteAt j = if j < p.len then 0 else p.byteAt j := by
  cases hd : p.data with
  | none => simp [Packet.byteAt, Packet.stale, hd]
  | some d =>
      by_cases hj : j < d.length
      · simp [Packet.byteAt, Packet.stale, hd, hj]
      · simp [Packet.byteAt, Packet.stale, hd, hj]

def longest (window : List Packet) : ℕ := (window.map Packet.len).foldr max 0

private theorem le_longest {window : List Packet} {p : Packet} (hp : p ∈ window) : p.len ≤ longest window := by
  induction window with
  | nil => cases hp
  | cons q window ih =>
      rw [longest, List.map_cons, List.foldr_cons]
      rcases List.mem_cons.mp hp with rfl | hp
      · exact le_max_left _ _
      · exact (ih hp).trans (le_max_right _ _)

/-- A repair packet comes out, and each byte up to the longest packet is the combination of the
padded packets. -/
def Encoder.Protects (env : Platform) (e : Encoder) (r : ℕ) : Prop :=
  ∃ p, e.generateRepairPacket env r = .ok (some p) ∧ ∀ j < longest e.sourceWindow,
    p.byteAt j = combinedByte env.policy (cauchyRow e.k r) (e.sourceWindow.map Packet.padded) e.k j

def Encoder16.Protects (F : Gf16Arith) (env : Platform) (e : Encoder16) (r : ℕ) : Prop :=
  ∃ p, e.generateRepairPacket F env r = .ok (some p) ∧ ∀ q, 2 * q < longest e.sourceWindow →
    wordAt (p.data.getD []) q =
      combinedWord F (cauchyRow16 F e.k r) (e.sourceWindow.map Packet.padded) e.k q

/-- The coefficients fit into a block, no packet is shorter than the first one, and the bytes behind
the length of the first one combine to nothing. -/
structure Encoder.Covers (env : Platform) (e : Encoder) (first : Packet) (r : ℕ) : Prop where
  fits : e.k ≤ env.blockSize
  shortest : ∀ p ∈ e.sourceWindow, first.len ≤ p.len
  tail : ∀ j, first.len ≤ j → j < longest e.sourceWindow →
    combinedByte env.policy (cauchyRow e.k r) (e.sourceWindow.map Packet.padded) e.k j = 0

/-- The coefficients fit into a block, what lies behind the ends of shorter packets combines to
nothing within the words of the first packet, and so do the packets behind these words. -/
structure Encoder16.Covers (F : Gf16Arith) (env : Platform) (e : Encoder16) (first : Packet) (r : ℕ) : Prop where
  fits : 2 * e.k ≤ env.blockSize
  stale : ∀ q < first.len / 2,
    combinedWord F (cauchyRow16 F e.k r) (e.sourceWindow.map Packet.stale) e.k q = 0
  tail : ∀ q, first.len / 2 ≤ q → 2 * q < longest e.sourceWindow →
    combinedWord F (cauchyRow16 F e.k r) (e.sourceWindow.map Packet.padded) e.k q = 0

/-! ## The byte encoder -/

section Bytes

variable {env : Platform} {e : Encoder} {first : Packet} {r : ℕ}

private theorem combinedByte_congr {policy : SimdPolicy} {coeffs : List UInt8} {window window' : List Packet} {k j : ℕ}
    (h : ∀ c < k, sourceByte window c j = sourceByte window' c j) :
    combinedByte policy coeffs window k j = combinedByte policy coeffs window' k j := by
  apply List.foldl_ext
  intro acc c hc
  rw [h c (List.mem_range.mp hc)]

private theorem sourceByte_padded {window : List Packet} {c j : ℕ} (h : ∀ p ∈ window, j < p.len) :
    sourceByte (window.map Packet.padded) c j = sourceByte window c j := by
  rw [sourceByte, sourceByte, List.getElem?_map]
  cases hc : window[c]? with
  | none => rfl
  | some p =>
      have hj := h p (List.mem_of_getElem? hc)
      simp [byteAt_padded, hj]

private theorem first_le_of_emitted {p q : Packet} (hfirst : e.sourceWindow[0]? = some first)
    (hfull : e.sourceWindow.length = e.k) (hsrc : ∀ p ∈ e.sourceWindow, InBlock env.blockSize p)
    (hpoints : PointsDistinct e.k r) (hgen : e.generateRepairPacket env r = .ok (some q))
    (hp : p ∈ e.sourceWindow) : first.len ≤ p.len := by
  obtain ⟨i, hi, rfl⟩ := List.mem_iff_getElem.mp hp
  by_contra hshort
  rw [Encoder.generateRepairPacket, if_neg (by omega), readAt_eq_ok.mpr hfirst, ok_bind,
    generateCauchyCoefficients_ok hpoints, ok_bind, bind_eq_ok] at hgen
  obtain ⟨rd, hloop, -⟩ := hgen
  obtain ⟨u, u', hstep⟩ := loopTo_step_ok hloop hi
  obtain ⟨d, hd, hdlen⟩ := (hsrc _ hp).data_eq
  have hle := (hsrc _ hp).len_le
  have hslice : sliceOf d 0 e.sourceWindow[i].len = .ok (d.take e.sourceWindow[i].len) :=
    sliceOf_of_le (Nat.zero_le _) (by omega)
  rw [Encoder.addSource, readAt_getD (by simp; omega) 0, ok_bind,
    if_neg (cauchyRow_ne_zero hpoints (by omega)), readAt_of_lt hi, ok_bind, hd, expectSome, ok_bind, hslice,
    ok_bind, Encoder.accumulate, unrolledTo_eq] at hstep
  -- the loop reaches the first byte behind the end of the packet
  obtain ⟨v, v', hread⟩ := loopTo_step_ok hstep (Nat.lt_of_not_le hshort)
  rw [bind_eq_ok] at hread
  obtain ⟨x, hx, -⟩ := hread
  rw [readAt_eq_ok, List.getElem?_take, if_neg (lt_irrefl _)] at hx
  cases hx

private theorem protects_iff_covers (hfirst : e.sourceWindow[0]? = some first) (hfull : e.sourceWindow.length = e.k)
    (hsrc : ∀ p ∈ e.sourceWindow, InBlock env.blockSize p) (hpoints : PointsDistinct e.k r) :
    e.Protects env r ↔ e.Covers env first r := by
  have hpos : 0 < e.sourceWindow.length := (List.getElem?_eq_some_iff.mp hfirst).1
  have hlast := List.getLast?_eq_some_getLast (List.length_pos_iff.mp hpos)
  have hlen := (hsrc first (List.mem_of_getElem? hfirst)).len_le
  constructor
  · intro h
    obtain ⟨p, hgen, hbytes⟩ := h
    have hfits := (generateRepairPacket_shape hfull (by omega) hpoints hgen).1
    have hshortest : ∀ q ∈ e.sourceWindow, first.len ≤ q.len :=
      fun q hq => first_le_of_emitted hfirst hfull hsrc hpoints hgen hq
    have hemit := generateRepairPacket_covered hfull hfirst hlast hsrc hshortest hpoints hfits
    rw [hemit, Except.ok.injEq, Option.some.injEq] at hgen
    refine ⟨hfits, hshortest, ?_⟩
    intro j hj hj'
    rw [← hbytes j hj', ← hgen, byteAt_repairPacket hlen, if_neg (Nat.not_lt.mpr hj)]
  · intro h
    refine ⟨_, generateRepairPacket_covered hfull hfirst hlast hsrc h.shortest hpoints h.fits, ?_⟩
    intro j hj
    rw [byteAt_repairPacket hlen]
    split
    · rename_i hcovered
      apply combinedByte_congr
      intro c _
      exact (sourceByte_padded fun p hp => lt_of_lt_of_le hcovered (h.shortest p hp)).symm
    · rename_i htail
      exact (h.tail j (Nat.le_of_not_lt htail) hj).symm

end Bytes

/-! ## The word encoder -/

private theorem gf16MulLoop_zero_right (fuel : ℕ) (a res : UInt16) : gf16MulLoop fuel a 0 res = res := by
  cases fuel <;> rfl

private theorem gf16MulLoop_acc (fuel : ℕ) (a b res : UInt16) :
    gf16MulLoop fuel a b res = gf16MulLoop fuel a b 0 ^^^ res := by
  induction fuel generalizing a b res with
  | zero => simp [gf16MulLoop]
  | succ fuel ih =>
      by_cases hb : b = 0
      · simp [gf16MulLoop, hb]
      · simp only [gf16MulLoop, if_neg hb]
        by_cases hbit : b &&& 1 ≠ 0
        · rw [if_pos hbit, if_pos hbit, ih _ _ (res ^^^ a), ih _ _ (0 ^^^ a), UInt16.zero_xor,
            UInt16.xor_assoc, UInt16.xor_comm a res]
        · rw [if_neg hbit, if_neg hbit]
          exact ih _ _ _

def lowBit (a b : UInt16) : UInt16 := if b &&& 1 ≠ 0 then a else 0

private theorem and_one_cases (b : UInt16) : b &&& 1 = 0 ∨ b &&& 1 = 1 := by
  have hmod : (b &&& 1).toNat = b.toNat % 2 := by
    rw [UInt16.toNat_and]
    exact Nat.and_one_is_mod _
  rcases Nat.mod_two_eq_zero_or_one b.toNat with h | h
  · exact .inl (UInt16.toNat_inj.mp (hmod.trans h))
  · exact .inr (UInt16.toNat_inj.mp (hmod.trans h))

private theorem lowBit_xor (a b c : UInt16) : lowBit a (b ^^^ c) = lowBit a b ^^^ lowBit a c := by
  have hand : (b ^^^ c) &&& 1 = (b &&& 1) ^^^ (c &&& 1) := by
    apply UInt16.toBitVec_inj.mp
    ext i
    simp [Bool.and_xor_distrib_right]
  rw [lowBit, lowBit, lowBit, hand]
  rcases and_one_cases b with hb | hb <;> rcases and_one_cases c with hc | hc <;> simp [hb, hc]

def gf16Double (a : UInt16) : UInt16 :=
  if a <<< 1 &&& UInt16.ofNat 0x10000 ≠ 0 then a <<< 1 ^^^ UInt16.ofNat gf16Poly else a <<< 1

private theorem gf16MulLoop_succ (fuel : ℕ) (a b : UInt16) :
    gf16MulLoop (fuel + 1) a b 0 = gf16MulLoop fuel (gf16Double a) (b >>> 1) 0 ^^^ lowBit a b := by
  by_cases hb : b = 0
  · rw [hb, UInt16.zero_shiftRight, gf16MulLoop_zero_right, gf16MulLoop_zero_right]
    simp [lowBit]
  · rw [gf16MulLoop, if_neg hb]
    dsimp only
    rw [gf16MulLoop_acc, UInt16.zero_xor]
    rfl

private theorem gf16Mul_xor (a b c : UInt16) : gf16Mul a (b ^^^ c) = gf16Mul a b ^^^ gf16Mul a c := by
  have hloop : ∀ fuel a b c, gf16MulLoop fuel a (b ^^^ c) 0 =
      gf16MulLoop fuel a b 0 ^^^ gf16MulLoop fuel a c 0 := by
    intro fuel
    induction fuel with
    | zero => intro a b c; exact UInt16.xor_self.symm
    | succ fuel ih =>
        intro a b c
        rw [gf16MulLoop_succ, gf16MulLoop_succ, gf16MulLoop_succ, UInt16.shiftRight_xor, ih, lowBit_xor]
        ac_rfl
  exact hloop 16 a b c

section Words

variable {F : Gf16Arith} {env : Platform} {e : Encoder16} {first : Packet} {r : ℕ}

private theorem wordAt_repairPayload16 {coeffs : List UInt16} {window : List Packet} {k len : ℕ}
    (hlen : len ≤ env.blockSize) (q : ℕ) :
    wordAt (repairPayload16 F env coeffs window k len) q =
      if q < len / 2 then combinedWord F coeffs window k q else 0 := by
  split
  · rename_i hq
    rw [repairPayload16, wordAt_mapWords _ (by rw [Platform.alloc_length]; omega), if_pos hq]
  · rename_i hq
    have hbyte : ∀ j, q ≤ j / 2 → (repairPayload16 F env coeffs window k len).getD j 0 = 0 := by
      intro j hj
      have hj' : ¬ j / 2 < len / 2 := by omega
      by_cases hlt : j < env.blockSize
      · simp [repairPayload16, mapWords, Platform.alloc, hlt, hj']
      · simp [repairPayload16, hlt]
    rw [wordAt, hbyte _ (by omega), hbyte _ (by omega)]
    rfl

private theorem word_xor {a b c d : ℕ} (hb : b < 256) (hd : d < 256) :
    (a ^^^ c) * 256 + (b ^^^ d) = (a * 256 + b) ^^^ (c * 256 + d) := by
  have hlow : ∀ x y i, y < 256 → (x * 256 + y).testBit i = if i < 8 then y.testBit i else x.testBit (i - 8) := by
    intro x y i hy
    rw [Nat.mul_comm]
    exact Nat.testBit_two_pow_mul_add (i := 8) x hy i
  apply Nat.eq_of_testBit_eq
  intro i
  rw [Nat.testBit_xor, hlow _ _ _ hb, hlow _ _ _ hd, hlow _ _ _ (Nat.xor_lt_two_pow (n := 8) hb hd),
    Nat.testBit_xor, Nat.testBit_xor]
  split <;> rfl

private theorem fromBeBytes_xor (a b c d : UInt8) :
    fromBeBytes (a ^^^ c) (b ^^^ d) = fromBeBytes a b ^^^ fromBeBytes c d := by
  rw [fromBeBytes, fromBeBytes, fromBeBytes, UInt8.toNat_xor, UInt8.toNat_xor,
    word_xor b.toNat_lt d.toNat_lt, UInt16.ofNat_xor]

private theorem sourceWord_split (window : List Packet) (c q : ℕ) :
    sourceWord window c q =
      sourceWord (window.map Packet.padded) c q ^^^ sourceWord (window.map Packet.stale) c q := by
  have hbyte : ∀ (p : Packet) j, p.byteAt j = p.padded.byteAt j ^^^ p.stale.byteAt j := by
    intro p j
    rw [byteAt_padded, byteAt_stale]
    split <;> simp
  rw [sourceWord, sourceWord, sourceWord, List.getElem?_map, List.getElem?_map]
  cases window[c]? with
  | none => exact UInt16.xor_self.symm
  | some p =>
      change fromBeBytes (p.byteAt _) (p.byteAt _) =
        fromBeBytes (p.padded.byteAt _) (p.padded.byteAt _) ^^^ fromBeBytes (p.stale.byteAt _) (p.stale.byteAt _)
      rw [← fromBeBytes_xor, ← hbyte, ← hbyte]

private theorem combinedWord_split (hxor : ∀ a b c, F.mul a (b ^^^ c) = F.mul a b ^^^ F.mul a c)
    (coeffs : List UInt16) (window : List Packet) (k q : ℕ) :
    combinedWord F coeffs window k q = combinedWord F coeffs (window.map Packet.padded) k q ^^^
      combinedWord F coeffs (window.map Packet.stale) k q := by
  induction k with
  | zero => exact UInt16.xor_self.symm
  | succ k ih =>
      have hnext : ∀ w, combinedWord F coeffs w (k + 1) q =
          F.gf16MulAdd (coeffs.getD k 0) (sourceWord w k q) (combinedWord F coeffs w k q) := by
        intro w
        rw [combinedWord, List.range_succ, List.foldl_append]
        rfl
      rw [hnext, hnext, hnext, ih, sourceWord_split, Gf16Arith.gf16MulAdd, Gf16Arith.gf16MulAdd,
        Gf16Arith.gf16MulAdd, hxor]
      ac_rfl

private theorem protects16_iff_covers (hzero : ∀ b, F.mul 0 b = 0)
    (hxor : ∀ a b c, F.mul a (b ^^^ c) = F.mul a b ^^^ F.mul a c)
    (hfirst : e.sourceWindow[0]? = some first) (hfull : e.sourceWindow.length = e.k)
    (hsrc : ∀ p ∈ e.sourceWindow, InBlock env.blockSize p) (hpoints : PointsDistinct16 e.k r) :
    e.Protects F env r ↔ e.Covers F env first r := by
  have hpos : 0 < e.sourceWindow.length := (List.getElem?_eq_some_iff.mp hfirst).1
  have hlast := List.getLast?_eq_some_getLast (List.length_pos_iff.mp hpos)
  have hmem := List.mem_of_getElem? hfirst
  have hlen := (hsrc first hmem).len_le
  have hword : ∀ id q, wordAt ((repairPacket16 F env e.sourceWindow id e.k first.len r).data.getD []) q =
      if q < first.len / 2 then combinedWord F (cauchyRow16 F e.k r) e.sourceWindow e.k q else 0 :=
    fun id q => wordAt_repairPayload16 hlen q
  constructor
  · intro h
    obtain ⟨p, hgen, hwords⟩ := h
    have hfits : 2 * e.k ≤ env.blockSize := by
      by_contra hmisfit
      rw [generateRepairPacket16_error hzero hfull (by omega) hsrc hpoints (Nat.lt_of_not_le hmisfit)] at hgen
      cases hgen
    rw [generateRepairPacket16_inBlock hzero hfull hfirst hlast hsrc hpoints hfits, Except.ok.injEq,
      Option.some.injEq] at hgen
    subst hgen
    refine ⟨hfits, ?_, ?_⟩
    · intro q hq
      have heq := hwords q (lt_of_lt_of_le (by omega) (le_longest hmem))
      rw [hword, if_pos hq, combinedWord_split hxor] at heq
      exact UInt16.xor_right_inj _ |>.mp (heq.trans UInt16.xor_zero.symm)
    · intro q hq hq'
      rw [← hwords q hq', hword, if_neg (Nat.not_lt.mpr hq)]
  · intro h
    refine ⟨_, generateRepairPacket16_inBlock hzero hfull hfirst hlast hsrc hpoints h.fits, ?_⟩
    intro q hq
    rw [hword]
    split
    · rename_i hcovered
      rw [combinedWord_split hxor, h.stale q hcovered, UInt16.xor_zero]
    · rename_i htail
      exact (h.tail q (Nat.le_of_not_lt htail) hq).symm

end Words

/-! ## Both encoders -/

/-- Exactly when a full window is protected, for every repair index whose coefficients exist. -/
theorem repairPacket_protects_iff {env : Platform} {k n r : ℕ} {first : Packet} {window : List Packet}
    (hfull : (first :: window).length = k) (hsrc : ∀ p ∈ first :: window, InBlock env.blockSize p) :
    (PointsDistinct k r → ((Encoder.mk k n (first :: window)).Protects env r ↔
      (Encoder.mk k n (first :: window)).Covers env first r)) ∧
    (PointsDistinct16 k r → ((Encoder16.mk k n (first :: window)).Protects gf16Arith env r ↔
      (Encoder16.mk k n (first :: window)).Covers gf16Arith env first r)) := by
  constructor
  · intro hpoints
    exact protects_iff_covers rfl hfull hsrc hpoints
  · intro hpoints
    exact protects16_iff_covers gf16Mul_zero_left gf16Mul_xor rfl hfull hsrc hpoints

theorem repairPacket_protects_equal_lengths :
    (Encoder.mk 2 3 [⟨0, some [1, 2, 0, 0], 2, true, none, 0⟩, ⟨1, some [3, 5, 0, 0], 2, true, none, 0⟩]).Protects
        ⟨.scalar, 4⟩ 0 ∧
      (Encoder16.mk 2 3 [⟨0, some [1, 2, 0, 0], 2, true, none, 0⟩, ⟨1, some [3, 5, 0, 0], 2, true, none, 0⟩]).Protects
        gf16Arith ⟨.scalar, 4⟩ 0 := by
  have hsrc : ∀ p ∈ [(⟨0, some [1, 2, 0, 0], 2, true, none, 0⟩ : Packet), ⟨1, some [3, 5, 0, 0], 2, true, none, 0⟩],
      InBlock 4 p := by
    intro p hp
    simp only [List.mem_cons, List.not_mem_nil, or_false] at hp
    rcases hp with rfl | rfl
    · exact ⟨⟨_, rfl, rfl⟩, by decide⟩
    · exact ⟨⟨_, rfl, rfl⟩, by decide⟩
  have hiff := @repairPacket_protects_iff ⟨.scalar, 4⟩ 2 3 0 _ _ rfl hsrc
  constructor
  · refine (hiff.1 (pointsDistinct_of_le (by decide))).mpr ⟨by decide, by decide, ?_⟩
    intro j hj hj'
    exact absurd (lt_of_le_of_lt hj hj') (by decide)
  · refine (hiff.2 (pointsDistinct16_of_lt (by decide))).mpr ⟨by decide, by decide +kernel, ?_⟩
    intro q hq hq'
    change 1 ≤ q at hq
    change 2 * q < 2 at hq'
    omega

/-- Behind a packet of one byte, the second byte of the other packet is not protected, and in words
nothing is; the other way round the byte encoder aborts. -/
theorem repairPacket_loses_bytes :
    let short : Packet := ⟨0, some [1, 0, 0, 0], 1, true, none, 0⟩
    let long : Packet := ⟨1, some [3, 5, 0, 0], 2, true, none, 0⟩
    ¬ (Encoder.mk 2 3 [short, long]).Protects ⟨.scalar, 4⟩ 0 ∧
      ¬ (Encoder16.mk 2 3 [short, long]).Protects gf16Arith ⟨.scalar, 4⟩ 0 ∧
      (Encoder.mk 2 3 [long, short]).generateRepairPacket ⟨.scalar, 4⟩ 0 = .error .indexOutOfBounds := by
  intro short long
  have hsrc : ∀ p ∈ [short, long], InBlock 4 p := by
    intro p hp
    simp only [List.mem_cons, List.not_mem_nil, or_false] at hp
    rcases hp with rfl | rfl
    · exact ⟨⟨_, rfl, rfl⟩, by decide⟩
    · exact ⟨⟨_, rfl, rfl⟩, by decide⟩
  refine ⟨?_, ?_, by decide +kernel⟩
  · intro h
    have hcovers := (protects_iff_covers (e := ⟨2, 3, [short, long]⟩) rfl rfl hsrc
      (pointsDistinct_of_le (by decide))).mp h
    exact absurd (hcovers.tail 1 (by decide) (by decide)) (by decide +kernel)
  · intro h
    have hcovers := (protects16_iff_covers (e := ⟨2, 3, [short, long]⟩) gf16Mul_zero_left gf16Mul_xor rfl rfl hsrc
      (pointsDistinct16_of_lt (by decide))).mp h
    exact absurd (hcovers.tail 0 (by decide) (by decide)) (by decide +kernel)

end QuicFuscate.Fec
