import QuicFuscate.Fec.Proofs.Encoder

/-!
# What the GF(2^16) encoder emits

Payloads and coefficient blocks are read and written as big-endian words.  The emitted packet is
described word by word, so that nothing after this module looks at single bytes.
-/

namespace QuicFuscate.Fec

open Framework

/-! ## Words of a block -/

def wordAt (p : List UInt8) (q : ℕ) : UInt16 :=
  fromBeBytes (p.getD (2 * q) 0) (p.getD (2 * q + 1) 0)

def setWord (p : List UInt8) (q : ℕ) (v : UInt16) : List UInt8 :=
  (p.set (2 * q) (toBeBytes v).1).set (2 * q + 1) (toBeBytes v).2

def byteOf (v : UInt16) (j : ℕ) : UInt8 :=
  if j % 2 = 0 then (toBeBytes v).1 else (toBeBytes v).2

def mapWords (m : ℕ) (f : ℕ → UInt16 → UInt16) (p : List UInt8) : List UInt8 :=
  p.mapIdx fun j x => if j / 2 < m then byteOf (f (j / 2) (wordAt p (j / 2))) j else x

variable {p : List UInt8} {m q : ℕ} {f g : ℕ → UInt16 → UInt16}

theorem readWord_of_lt (hq : 2 * q + 1 < p.length) : readWord p (2 * q) = .ok (wordAt p q) := by
  rw [readWord, readAt_getD (by omega) 0, ok_bind, readAt_getD hq 0]
  rfl

theorem writeWord_of_lt (hq : 2 * q + 1 < p.length) (v : UInt16) :
    writeWord p (2 * q) v = .ok (setWord p q v) := by
  rw [writeWord, writeAt_of_lt (by omega), ok_bind, writeAt_of_lt (by simpa using hq)]
  rfl

@[simp] theorem setWord_length (p : List UInt8) (q : ℕ) (v : UInt16) :
    (setWord p q v).length = p.length := by
  simp [setWord]

@[simp] theorem mapWords_length (m : ℕ) (f : ℕ → UInt16 → UInt16) (p : List UInt8) :
    (mapWords m f p).length = p.length := by
  simp [mapWords]

@[simp] theorem mapWords_zero (f : ℕ → UInt16 → UInt16) (p : List UInt8) : mapWords 0 f p = p := by
  apply List.ext_getElem
  · simp
  · intro j h1 h2
    simp [mapWords]

theorem wordAt_mapWords (f : ℕ → UInt16 → UInt16) (hq : 2 * q + 1 < p.length) :
    wordAt (mapWords m f p) q = if q < m then f q (wordAt p q) else wordAt p q := by
  have hlow : 2 * q / 2 = q := by omega
  have hhigh : (2 * q + 1) / 2 = q := by omega
  have hfirst : 2 * q < p.length := by omega
  rw [wordAt, List.getD_eq_getElem _ _ (by simpa using hfirst),
    List.getD_eq_getElem _ _ (by simpa using hq)]
  simp only [mapWords, List.getElem_mapIdx, hlow, hhigh]
  split
  · have hodd : (2 * q + 1) % 2 ≠ 0 := by omega
    rw [byteOf, byteOf, if_pos (by omega), if_neg hodd, fromBeBytes_toBeBytes]
  · rw [wordAt, List.getD_eq_getElem _ _ hfirst, List.getD_eq_getElem _ _ hq]

private theorem mapWords_congr (h : ∀ q < m, ∀ v, f q v = g q v) : mapWords m f p = mapWords m g p := by
  apply List.ext_getElem
  · simp
  · intro j h1 h2
    by_cases hj : j / 2 < m
    · simp [mapWords, hj, h _ hj]
    · simp [mapWords, hj]

private theorem wordAt_take {n : ℕ} (hq : 2 * q + 1 < n) : wordAt (p.take n) q = wordAt p q := by
  simp [wordAt, List.getD_eq_getElem?_getD, hq, (by omega : 2 * q < n)]

private theorem setWord_mapWords (hm : 2 * m + 1 < p.length) :
    setWord (mapWords m f p) m (f m (wordAt (mapWords m f p) m)) = mapWords (m + 1) f p := by
  rw [wordAt_mapWords f hm, if_neg (lt_irrefl m)]
  apply List.ext_getElem
  · simp
  · intro j h1 h2
    simp only [setWord, List.getElem_set, mapWords, List.getElem_mapIdx]
    by_cases hodd : 2 * m + 1 = j
    · have hdiv : j / 2 = m := by omega
      have hmod : j % 2 ≠ 0 := by omega
      simp [hodd, hdiv, byteOf, hmod]
    · by_cases heven : 2 * m = j
      · have hdiv : j / 2 = m := by omega
        have hmod : j % 2 = 0 := by omega
        simp [heven, hdiv, byteOf, hmod]
      · have hiff : j / 2 < m + 1 ↔ j / 2 < m := by omega
        simp [hodd, heven, hiff]

theorem loopTo_mapWords {body : ℕ → List UInt8 → Checked (List UInt8)}
    (hbody : ∀ q ys, q < m → ys.length = p.length →
      body q ys = .ok (setWord ys q (f q (wordAt ys q)))) (hm : 2 * m ≤ p.length) :
    loopTo m p body = .ok (mapWords m f p) := by
  apply loopTo_eq (fun i => mapWords i f p) (mapWords_zero f p) _ rfl
  intro i hi
  rw [hbody i _ hi (by simp), setWord_mapWords (by omega)]

private theorem mapWords_mapWords (hm : 2 * m ≤ p.length) :
    mapWords m f (mapWords m g p) = mapWords m (fun q v => f q (g q v)) p := by
  have hword : ∀ q < m, wordAt (mapWords m g p) q = g q (wordAt p q) := by
    intro q hq
    rw [wordAt_mapWords g (by omega), if_pos hq]
  apply List.ext_getElem
  · simp
  · intro j h1 h2
    have hj' : j < (mapWords m g p).length := by simpa using h2
    have hleft : (mapWords m f (mapWords m g p))[j] =
        if j / 2 < m then byteOf (f (j / 2) (wordAt (mapWords m g p) (j / 2))) j
        else (mapWords m g p)[j] := List.getElem_mapIdx
    rw [hleft]
    by_cases hj : j / 2 < m
    · rw [if_pos hj, hword _ hj]
      simp [mapWords, hj]
    · simp [mapWords, hj]

/-! ## The window -/

theorem foldl_addSourcePacket16 (e : Encoder16) (ps : List Packet) :
    ps.foldl Encoder16.addSourcePacket e =
      { e with sourceWindow := ps.foldl (pushBounded e.k) e.sourceWindow } := by
  induction ps generalizing e with
  | nil => rfl
  | cons p ps ih => rw [List.foldl_cons, ih]; rfl

/-! ## Coefficients -/

def PointsDistinct16 (k r : ℕ) : Prop := ∀ i < k, UInt16.ofNat i ≠ UInt16.ofNat (k + r)

theorem ofNat_word_eq_iff {a b : ℕ} :
    UInt16.ofNat a = UInt16.ofNat b ↔ a % 65536 = b % 65536 := by
  rw [← UInt16.toNat_inj, UInt16.toNat_ofNat', UInt16.toNat_ofNat']

theorem pointsDistinct16_of_lt {k r : ℕ} (h : k + r < 65536) : PointsDistinct16 k r := by
  intro i hi heq
  rw [ofNat_word_eq_iff] at heq
  omega

def cauchyRow16 (F : Gf16Arith) (k r : ℕ) : List UInt16 :=
  (List.range k).map fun i => F.inv (UInt16.ofNat i ^^^ UInt16.ofNat (k + r))

variable {F : Gf16Arith} {env : Platform} {e : Encoder16} {len r : ℕ} {last : Packet}

@[simp] theorem cauchyRow16_length (F : Gf16Arith) (k r : ℕ) : (cauchyRow16 F k r).length = k := by
  simp [cauchyRow16]

private theorem generateCauchyCoefficients16_ok (h : PointsDistinct16 e.k r) :
    e.generateCauchyCoefficients F r = .ok (cauchyRow16 F e.k r) := by
  apply mapM_of_forall_ok
  intro i hi
  have hne : UInt16.ofNat i ^^^ UInt16.ofNat (e.k + r) ≠ 0 := by
    rw [Ne, UInt16.xor_eq_zero_iff]
    exact h i (List.mem_range.mp hi)
  rw [Gf16Arith.gf16Inv, if_neg hne]

/-! ## Repair packets -/

def sourceWord (window : List Packet) (c q : ℕ) : UInt16 :=
  (window[c]?.map fun p => wordAt (p.data.getD []) q).getD 0

def combinedWord (F : Gf16Arith) (coeffs : List UInt16) (window : List Packet) (k q : ℕ) :
    UInt16 :=
  (List.range k).foldl
    (fun acc c => F.gf16MulAdd (coeffs.getD c 0) (sourceWord window c q) acc) 0

def repairPayload16 (F : Gf16Arith) (env : Platform) (coeffs : List UInt16)
    (window : List Packet) (k len : ℕ) : List UInt8 :=
  mapWords (len / 2) (fun q _ => combinedWord F coeffs window k q) env.alloc

def repairPacket16 (F : Gf16Arith) (env : Platform) (window : List Packet) (lastId k len r : ℕ) :
    Packet where
  id := lastId + 1 + r
  data := some (repairPayload16 F env (cauchyRow16 F k r) window k len)
  len := len
  isSystematic := false
  coefficients := some (mapWords k (fun i _ => (cauchyRow16 F k r).getD i 0) env.alloc)
  coeffLen := k * 2

private theorem accumulate16_ok (F : Gf16Arith) (coeff : UInt16) {src rd : List UInt8}
    (hsrc : len ≤ src.length) (hrd : len ≤ rd.length) :
    Encoder16.accumulate F coeff src len rd =
      .ok (mapWords (len / 2) (fun q v => F.gf16MulAdd coeff (wordAt src q) v) rd) := by
  apply loopTo_mapWords
  · intro q ys hq hlen
    simp only [readWord_of_lt (by omega : 2 * q + 1 < src.length),
      readWord_of_lt (by omega : 2 * q + 1 < ys.length),
      writeWord_of_lt (by omega : 2 * q + 1 < ys.length), ok_bind]
  · omega

private theorem accumulateLoop16_ok {coeffs : List UInt16} (hzero : ∀ b, F.mul 0 b = 0)
    (hsrc : ∀ p ∈ e.sourceWindow, InBlock env.blockSize p)
    (hcoeffs : coeffs.length = e.sourceWindow.length) (hlen : len ≤ env.blockSize) :
    loopTo e.sourceWindow.length env.alloc (e.addSource F coeffs len) =
      .ok (repairPayload16 F env coeffs e.sourceWindow e.sourceWindow.length len) := by
  have hstep : ∀ i < e.sourceWindow.length,
      e.addSource F coeffs len i (repairPayload16 F env coeffs e.sourceWindow i len) =
        .ok (repairPayload16 F env coeffs e.sourceWindow (i + 1) len) := by
    intro i hi
    have hnext : ∀ q, combinedWord F coeffs e.sourceWindow (i + 1) q =
        F.gf16MulAdd (coeffs.getD i 0) (sourceWord e.sourceWindow i q)
          (combinedWord F coeffs e.sourceWindow i q) := by
      intro q
      rw [combinedWord, List.range_succ, List.foldl_append]
      rfl
    rw [Encoder16.addSource, readAt_getD (by omega) 0, ok_bind]
    by_cases hcoeff : coeffs.getD i 0 = 0
    · rw [if_pos hcoeff]
      simp only [repairPayload16, hnext, hcoeff, Gf16Arith.gf16MulAdd, hzero, UInt16.zero_xor, pure_eq_ok]
    · have hi_ok := hsrc e.sourceWindow[i] (List.getElem_mem hi)
      obtain ⟨d, hd, hdlen⟩ := hi_ok.data_eq
      have hslice : sliceOf d 0 len = .ok (d.take len) := sliceOf_of_le (Nat.zero_le len) (by omega)
      have htake : (d.take len).length = len := List.length_take_of_le (by omega)
      have hrd : len ≤ (repairPayload16 F env coeffs e.sourceWindow i len).length := by
        simpa [repairPayload16] using hlen
      rw [if_neg hcoeff, readAt_of_lt hi, ok_bind, hd, expectSome, ok_bind, hslice, ok_bind,
        accumulate16_ok F (coeffs.getD i 0) htake.ge hrd, repairPayload16,
        mapWords_mapWords (by rw [Platform.alloc_length]; omega)]
      apply congrArg Except.ok
      apply mapWords_congr
      intro q hq v
      rw [hnext, wordAt_take (by omega), sourceWord, List.getElem?_eq_getElem hi, Option.map_some,
        Option.getD_some, hd, Option.getD_some]
  have hstart : repairPayload16 F env coeffs e.sourceWindow 0 len = env.alloc := by
    rw [repairPayload16]
    apply List.ext_getElem
    · simp
    · intro j h1 h2
      simp [mapWords, combinedWord, Platform.alloc, byteOf, toBeBytes]
  exact loopTo_eq (fun i => repairPayload16 F env coeffs e.sourceWindow i len) hstart hstep rfl

private theorem coeffBlock_ok {k : ℕ} (hblock : 2 * k ≤ env.blockSize) :
    loopTo k env.alloc (fun i coeffBlock => do
      writeWord coeffBlock (2 * i) (← readAt (cauchyRow16 F k r) i)) =
      .ok (mapWords k (fun i _ => (cauchyRow16 F k r).getD i 0) env.alloc) := by
  apply loopTo_mapWords
  · intro q ys hq hlen
    rw [Platform.alloc_length] at hlen
    rw [readAt_getD (by simpa using hq) 0, ok_bind, writeWord_of_lt (by omega)]
  · simpa using hblock

private theorem coeffBlock_error {k : ℕ} (hblock : env.blockSize < 2 * k) :
    loopTo k env.alloc (fun i coeffBlock => do
      writeWord coeffBlock (2 * i) (← readAt (cauchyRow16 F k r) i)) = .error .indexOutOfBounds := by
  apply loopTo_error (fun _ block => block.length = env.blockSize)
    (by omega : env.blockSize / 2 < k) env.alloc_length
  · intro i block hi hlen
    refine ⟨_, by rw [readAt_getD (by simp; omega) 0, ok_bind, writeWord_of_lt (by omega)], ?_⟩
    simpa using hlen
  -- The second byte of the word, at the latest, lies behind the block.
  · intro block hlen
    rw [readAt_getD (by simp; omega) 0, ok_bind, writeWord]
    by_cases heven : 2 * (env.blockSize / 2) < block.length
    · rw [writeAt_of_lt heven, ok_bind, writeAt, if_neg (by rw [List.length_set]; omega)]
    · rw [writeAt, if_neg heven, error_bind]

theorem generateRepairPacket16_inBlock {first : Packet} (hzero : ∀ b, F.mul 0 b = 0)
    (hfull : e.sourceWindow.length = e.k) (hfirst : e.sourceWindow[0]? = some first)
    (hlast : e.sourceWindow.getLast? = some last) (hsrc : ∀ p ∈ e.sourceWindow, InBlock env.blockSize p)
    (hpoints : PointsDistinct16 e.k r) (hblock : 2 * e.k ≤ env.blockSize) :
    e.generateRepairPacket F env r =
      .ok (some (repairPacket16 F env e.sourceWindow last.id e.k first.len r)) := by
  have hfirst_ok := hsrc first (List.mem_of_getElem? hfirst)
  rw [Encoder16.generateRepairPacket, if_neg (by omega), readAt_eq_ok.mpr hfirst, ok_bind,
    generateCauchyCoefficients16_ok hpoints, ok_bind,
    accumulateLoop16_ok hzero hsrc (by simp [hfull]) hfirst_ok.len_le, ok_bind, cauchyRow16_length,
    coeffBlock_ok hblock, ok_bind, hlast, expectSome, ok_bind]
  simp [repairPacket16, hfull]

/-- A full window aborts when its coefficients do not fit into a block. -/
theorem generateRepairPacket16_error (hzero : ∀ b, F.mul 0 b = 0)
    (hfull : e.sourceWindow.length = e.k) (hk : 1 ≤ e.k)
    (hsrc : ∀ p ∈ e.sourceWindow, InBlock env.blockSize p)
    (hpoints : PointsDistinct16 e.k r) (hblock : env.blockSize < 2 * e.k) :
    e.generateRepairPacket F env r = .error .indexOutOfBounds := by
  have hpos : 0 < e.sourceWindow.length := by omega
  have hfirst := hsrc e.sourceWindow[0] (List.getElem_mem hpos)
  rw [Encoder16.generateRepairPacket, if_neg (by omega), readAt_of_lt hpos, ok_bind,
    generateCauchyCoefficients16_ok hpoints, ok_bind,
    accumulateLoop16_ok hzero hsrc (by simp [hfull]) hfirst.len_le, ok_bind, cauchyRow16_length,
    coeffBlock_error hblock, error_bind]

theorem generateRepairPacket16_ok (hzero : ∀ b, F.mul 0 b = 0)
    (hfull : e.sourceWindow.length = e.k) (hlast : e.sourceWindow.getLast? = some last)
    (hsrc : ∀ p ∈ e.sourceWindow, SourceOk env.blockSize len p)
    (hpoints : PointsDistinct16 e.k r) (hblock : 2 * e.k ≤ env.blockSize) :
    e.generateRepairPacket F env r =
      .ok (some (repairPacket16 F env e.sourceWindow last.id e.k len r)) := by
  have hpos : 0 < e.sourceWindow.length := by
    cases h : e.sourceWindow with
    | nil => simp [h] at hlast
    | cons p ps => simp
  have hfirst := hsrc e.sourceWindow[0] (List.getElem_mem hpos)
  rw [generateRepairPacket16_inBlock hzero hfull (List.getElem?_eq_getElem hpos) hlast
    (fun p hp => (hsrc p hp).inBlock) hpoints hblock, hfirst.len_eq]

/-! ## The product as implemented -/

theorem gf16Mul_zero_left (b : UInt16) : gf16Mul 0 b = 0 := by
  have hloop : ∀ fuel b, gf16MulLoop fuel 0 b 0 = 0 := by
    intro fuel
    induction fuel with
    | zero => intro b; rfl
    | succ fuel ih =>
        intro b
        simp [gf16MulLoop, ih]
  exact hloop 16 b

end QuicFuscate.Fec
