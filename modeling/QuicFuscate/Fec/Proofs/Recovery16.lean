import QuicFuscate.Fec.Proofs.Decoder16
import QuicFuscate.Fec.Proofs.GaloisField16
import QuicFuscate.Fec.Proofs.Recovery

/-!
# Recovery over GF(2^16)

A run of the GF(2^16) decoder never holds more payloads than it was given repair packets, because a
systematic packet brings none and elimination makes none.  So the window comes back only from
repair packets; from `k` different ones it always does.
-/

namespace QuicFuscate.Fec

open Framework

namespace Decoder16

def feed (F : Gf16Arith) :
    Decoder16 → List Packet → Checked (List (Except String Bool) × Decoder16) :=
  runAll (addPacket F)

/-! ## Payloads are never created -/

/-- The number of rows with a payload. -/
def carried (payloads : List (Option (List UInt8))) : ℕ := payloads.countP Option.isSome

private theorem getDecodedPackets_length (d : Decoder16) :
    d.getDecodedPackets.1.length = carried d.payloads := by
  have hfst : d.payloads.zipIdx.countP (Option.isSome ∘ Prod.fst) = carried d.payloads := by
    rw [← List.countP_map, List.zipIdx_map_fst]
    rfl
  rw [getDecodedPackets, List.length_filterMap_eq_countP, ← hfst]
  congr 1
  funext e
  simp

variable {F : Gf16Arith} {k : ℕ}

private theorem carried_eq (payloads : List (Option (List UInt8))) :
    carried payloads = (payloadLengths payloads).countP Option.isSome := by
  rw [payloadLengths, List.countP_map, carried]
  congr 1
  funext payload
  simp

private theorem carried_addPacket {d d' : Decoder16} {p : Packet} {b : Except String Bool}
    (h : d.addPacket F p = .ok (b, d')) :
    carried d'.payloads ≤ carried d.payloads + if p.isSystematic then 0 else 1 := by
  rcases addPacket_lengths h with hsame | hmore
  · rw [hsame]
    exact Nat.le_add_right _ _
  · rw [carried_eq, hmore.countP_eq, ← carried_eq, carried, List.countP_append]
    apply Nat.add_le_add_left
    split
    · exact le_rfl
    · exact List.countP_le_length

private theorem carried_feed {d d' : Decoder16} {ps : List Packet} {bs : List (Except String Bool)}
    (h : d.feed F ps = .ok (bs, d')) :
    carried d'.payloads ≤ carried d.payloads + ps.countP fun p => !p.isSystematic := by
  induction ps generalizing d bs with
  | nil =>
      simp only [feed, runAll, Except.ok.injEq, Prod.mk.injEq] at h
      rw [← h.2]
      simp
  | cons p ps ih =>
      obtain ⟨b, u, bs', hstep, hrun, -⟩ := runAll_cons_eq_ok.mp h
      have h1 := ih hrun
      have h2 := carried_addPacket hstep
      rw [List.countP_cons]
      cases hsys : p.isSystematic <;> simp only [hsys] at h2 ⊢ <;> simp at h2 ⊢ <;> omega

/-! ## Collecting repair packets -/

def repairRow (k : ℕ) (p : Packet) : List UInt16 :=
  (List.range k).map (wordAt (p.coefficients.getD []))

/-- A decoder that has collected the rows of repair packets. -/
def collecting (k : ℕ) (ps : List Packet) : Decoder16 :=
  ⟨k, ps.map (repairRow k), ps.map Packet.data, false⟩

def RepairOk (k : ℕ) (p : Packet) : Prop :=
  p.isSystematic = false ∧ ∃ c, p.coefficients = some c ∧ 2 * k ≤ c.length

theorem addPacket_collecting {ps : List Packet} {p : Packet} (hlen : ps.length < k)
    (hp : RepairOk k p) :
    (collecting k ps).addPacket F p =
      (collecting k (ps ++ [p])).tryDecode F >>= fun r => .ok (.ok r.1, r.2) := by
  obtain ⟨hsys, c, hc, hle⟩ := hp
  have hrow : (List.range k).mapM (fun i => readWord c (2 * i)) = .ok (repairRow k p) := by
    rw [repairRow, hc]
    apply mapM_of_forall_ok
    intro i hi
    have hi' := List.mem_range.mp hi
    exact readWord_of_lt (by omega)
  have hopen : ¬ ((collecting k ps).isDecoded = true ∨
      (collecting k ps).matrix.length ≥ (collecting k ps).k) := by
    simp [collecting, hlen]
  rw [addPacket, if_neg hopen, if_neg (by simp [hsys]), hc]
  simp only [show (collecting k ps).k = k from rfl, hrow, ok_bind]
  simp [collecting]

theorem tryDecode_collecting {ps : List Packet} (hlen : ps.length < k) :
    (collecting k ps).tryDecode F = .ok (false, collecting k ps) := by
  rw [tryDecode, if_pos (by simpa [collecting] using hlen)]
  rfl

/-- As long as rows are missing, every call reports that nothing is decoded. -/
private theorem feed_collecting {done ps : List Packet} (hps : ∀ p ∈ ps, RepairOk k p)
    (hlen : done.length + ps.length < k) :
    (collecting k done).feed F ps =
      .ok (List.replicate ps.length (.ok false), collecting k (done ++ ps)) := by
  induction ps generalizing done with
  | nil => simp [feed, runAll]
  | cons p ps ih =>
      rw [List.length_cons] at hlen
      have hstep : (collecting k done).addPacket F p = _ :=
        addPacket_collecting (by omega) (hps p (by simp))
      rw [tryDecode_collecting (by simp; omega), ok_bind] at hstep
      have hrest := @ih (done ++ [p]) (fun q hq => hps q (by simp [hq])) (by simp; omega)
      refine (runAll_cons hstep hrest).trans ?_
      simp [List.replicate_succ]

def coeffOf (ps : List Packet) (t c : ℕ) : UInt16 :=
  (ps[t]?.map fun p => wordAt (p.coefficients.getD []) c).getD 0

def blockOf (ps : List Packet) (t : ℕ) : Option (List UInt8) := ps[t]?.bind Packet.data

private theorem rows_eq_gridRows {ps : List Packet} (hlen : ps.length = k) :
    ((collecting k ps).matrix, (collecting k ps).payloads) =
      gridRows k (coeffOf ps) (blockOf ps) := by
  rw [gridRows, Prod.mk.injEq]
  constructor
  · apply List.ext_getElem
    · simp [collecting, hlen]
    · intro t h1 h2
      have ht : t < ps.length := by simpa [hlen] using h2
      simp only [collecting, repairRow, List.getElem_map, List.getElem_range]
      apply List.map_congr_left
      intro c _
      simp [coeffOf, ht]
  · apply List.ext_getElem
    · simp [collecting, hlen]
    · intro t h1 h2
      have ht : t < ps.length := by simpa [hlen] using h2
      simp [collecting, blockOf, ht]

variable {K : Type} [Field K] {B w : ℕ}

/-- The system of `k` collected packets over the first `w` words. -/
def systemOf (X : ExactField F K) (k w : ℕ) (ps : List Packet) :
    LinearSystem k K (Fin w → K) where
  coeff t c := X.toField (coeffOf ps t c)
  payload t := (blockOf ps t).map (X.wordVec w)
  origin := 1

private theorem feed_independent (X : ExactField F K) {ps : List Packet} (hk : 1 ≤ k)
    (hlen : ps.length = k) (hps : ∀ p ∈ ps, RepairOk k p) (hw : 2 * w ≤ B)
    (hblocks : ∀ p ∈ ps, ∀ d, p.data = some d → d.length = B)
    (hind : LinearIndependent K (systemOf X k w ps).coeff) :
    ∃ a b t, Represents16 X B a b t ∧ (systemOf X k w ps).Reaches k t ∧
      (Decoder16.new k).feed F ps = .ok (List.replicate (k - 1) (.ok false) ++ [.ok true],
        ⟨k, (gridRows k a b).1, (gridRows k a b).2, true⟩) := by
  have hrep : Represents16 X B (coeffOf ps) (blockOf ps) (systemOf X k w ps) := by
    refine ⟨fun t ht p hp => ?_, fun _ _ => rfl, fun _ => rfl⟩
    obtain ⟨q, hq, hd⟩ := Option.bind_eq_some_iff.mp hp
    exact hblocks q (List.mem_of_getElem? hq) p hd
  rcases eliminateColumns16_reaches X hw (Nat.zero_add k) hrep .start with
    ⟨a, b, t, hrun, hrep', hreach⟩ | hstuck
  · refine ⟨a, b, t, hrep', hreach, ?_⟩
    obtain ⟨pre, p, rfl⟩ : ∃ pre p, ps = pre ++ [p] := by
      have hne : ps ≠ [] := by
        rintro rfl
        simp at hlen
        omega
      exact ⟨ps.dropLast, ps.getLast hne, (List.dropLast_append_getLast hne).symm⟩
    have hpre : pre.length = k - 1 := by simp at hlen; omega
    have hcollect : (collecting k []).feed F pre = _ :=
      feed_collecting (fun q hq => hps q (by simp [hq])) (by simp; omega)
    have htry : (collecting k (pre ++ [p])).tryDecode F =
        .ok (true, ⟨k, (gridRows k a b).1, (gridRows k a b).2, true⟩) := by
      rw [tryDecode, if_neg (by simp [collecting]; simp at hlen; omega), rows_eq_gridRows hlen,
        show (collecting k (pre ++ [p])).k = k from rfl, hrun]
      rfl
    have hlast : (collecting k pre).addPacket F p = _ :=
      addPacket_collecting (by omega) (hps p (by simp))
    rw [htry, ok_bind] at hlast
    rw [List.nil_append, hpre] at hcollect
    exact runAll_append hcollect (runAll_cons hlast rfl)
  · exact absurd hind hstuck.not_linearIndependent

end Decoder16

/-! ## Draws from a window -/

def encoder16After (k n : ℕ) (ps : List Packet) : Encoder16 :=
  ps.foldl Encoder16.addSourcePacket (Encoder16.new k n)

def Drawn16 (F : Gf16Arith) (env : Platform) (k n : ℕ) (window : List Packet) :
    Draw → Packet → Prop
  | .source i, p => window[i]? = some p
  | .repair r, p => k + r < 65536 ∧
      (encoder16After k n window).generateRepairPacket F env r = .ok (some p)

structure FullDraw16 (F : Gf16Arith) (env : Platform) (k n len : ℕ) (window : List Packet)
    (draws : List Draw) (ps : List Packet) : Prop where
  pos : 1 ≤ k
  window_ok : SourceWindow k window
  source_ok : ∀ p ∈ window, SourceOk env.blockSize len p
  even : 2 ∣ len
  nodup : draws.Nodup
  length_eq : draws.length = k
  drawn : List.Forall₂ (Drawn16 F env k n window) draws ps

variable {F : Gf16Arith} {K : Type} [Field K] {env : Platform} {k n len : ℕ}
  {window ps : List Packet} {draws : List Draw}

namespace FullDraw16

private theorem encoder16After_window (h : FullDraw16 F env k n len window draws ps) :
    encoder16After k n window = ⟨k, n, window⟩ := by
  rw [encoder16After, foldl_addSourcePacket16]
  simp only [Encoder16.new, foldl_pushBounded h.pos, h.window_ok.length_eq, Nat.sub_self,
    List.drop_zero]

private theorem repair_eq (X : ExactField F K) (h : FullDraw16 F env k n len window draws ps) {r : ℕ}
    {p : Packet} (hp : Drawn16 F env k n window (.repair r) p) :
    k + r < 65536 ∧ 2 * k ≤ env.blockSize ∧
      ∃ i, p = repairPacket16 F env window i k len r := by
  obtain ⟨hr, hgen⟩ := hp
  have hne : window ≠ [] := by
    rintro rfl
    have hpos := h.pos
    have hwl := h.window_ok.length_eq
    simp at hwl
    omega
  have hlast := List.getLast?_eq_some_getLast hne
  rw [h.encoder16After_window] at hgen
  by_cases hblock : 2 * k ≤ env.blockSize
  · have hok := generateRepairPacket16_ok (e := ⟨k, n, window⟩) X.zero_mul h.window_ok.length_eq
      hlast h.source_ok (pointsDistinct16_of_lt hr) hblock
    rw [hok, Except.ok.injEq, Option.some.injEq] at hgen
    exact ⟨hr, hblock, _, hgen.symm⟩
  · have herr := generateRepairPacket16_error (e := ⟨k, n, window⟩) X.zero_mul
      h.window_ok.length_eq h.pos (fun p hp => (h.source_ok p hp).inBlock) (pointsDistinct16_of_lt hr)
      (not_le.mp hblock)
    rw [herr] at hgen
    simp at hgen

theorem packets_length (h : FullDraw16 F env k n len window draws ps) : ps.length = k :=
  h.drawn.length_eq.symm.trans h.length_eq

theorem at_position (h : FullDraw16 F env k n len window draws ps) (t : Fin k) :
    ∃ d p, draws[t.val]? = some d ∧ ps[t.val]? = some p ∧ Drawn16 F env k n window d p := by
  have hd : t.val < draws.length := h.length_eq.symm ▸ t.isLt
  have hp : t.val < ps.length := h.packets_length.symm ▸ t.isLt
  exact ⟨draws[t.val], ps[t.val], List.getElem?_eq_getElem hd, List.getElem?_eq_getElem hp,
    List.forall₂_iff_get.mp h.drawn |>.2 t.val hd hp⟩

theorem len_le (h : FullDraw16 F env k n len window draws ps) : len ≤ env.blockSize := by
  have hpos : 0 < window.length := h.window_ok.length_eq.symm ▸ h.pos
  exact (h.source_ok window[0] (List.getElem_mem hpos)).len_le

private theorem repair_at (X : ExactField F K) (h : FullDraw16 F env k n len window draws ps)
    (hall : ∀ d ∈ draws, d.isRepair) (t : Fin k) :
    ∃ r p i, draws[t.val]? = some (.repair r) ∧ ps[t.val]? = some p ∧ k + r < 65536 ∧
      2 * k ≤ env.blockSize ∧ p = repairPacket16 F env window i k len r := by
  obtain ⟨d, p, hd, hp, hdrawn⟩ := h.at_position t
  cases d with
  | source i => simpa [Draw.isRepair] using hall _ (List.mem_of_getElem? hd)
  | repair r =>
      obtain ⟨hr, hblock, i, hi⟩ := h.repair_eq X hdrawn
      exact ⟨r, p, i, hd, hp, hr, hblock, hi⟩

private theorem toField_coeffOf (X : ExactField F K) {t c r i : ℕ} (hr : k + r < 65536)
    (hblock : 2 * k ≤ env.blockSize) (hc : c < k)
    (hp : ps[t]? = some (repairPacket16 F env window i k len r)) :
    Decoder16.coeffOf ps t c = (cauchyRow16 F k r).getD c 0 ∧
      X.toField (Decoder16.coeffOf ps t c) =
        (X.toField (UInt16.ofNat c) - X.toField (UInt16.ofNat (k + r)))⁻¹ := by
  have hne : UInt16.ofNat c ^^^ UInt16.ofNat (k + r) ≠ 0 := by
    rw [Ne, UInt16.xor_eq_zero_iff]
    exact pointsDistinct16_of_lt hr c hc
  have hcoeff : Decoder16.coeffOf ps t c = (cauchyRow16 F k r).getD c 0 := by
    rw [Decoder16.coeffOf, hp, Option.map_some, Option.getD_some]
    simp only [repairPacket16, Option.getD_some]
    rw [wordAt_mapWords _ (by rw [Platform.alloc_length]; omega), if_pos hc]
  refine ⟨hcoeff, ?_⟩
  rw [hcoeff, X.sub_eq_add, ← X.map_xor, ← X.map_inv _ hne, List.getD_eq_getElem _ _ (by simpa)]
  simp [cauchyRow16]

private theorem independent (X : ExactField F K) (h : FullDraw16 F env k n len window draws ps)
    (hall : ∀ d ∈ draws, d.isRepair) (w : ℕ) :
    LinearIndependent K (Decoder16.systemOf X k w ps).coeff := by
  choose r p i hdraw hpacket hr hblock hpr using h.repair_at X hall
  have hinj : ∀ a b, a < 65536 → b < 65536 →
      X.toField (UInt16.ofNat a) = X.toField (UInt16.ofNat b) → a = b := by
    intro a b ha hb hab
    have hmod := ofNat_word_eq_iff.mp (X.toField.injective hab)
    omega
  have hk : k < 65536 := by
    have h0 := hr ⟨0, h.pos⟩
    omega
  have hcoeff : ∀ t c : Fin k, (Decoder16.systemOf X k w ps).coeff t c =
      (X.toField (UInt16.ofNat c) - X.toField (UInt16.ofNat (k + r t)))⁻¹ := by
    intro t c
    exact (toField_coeffOf X (hr t) (hblock t) c.isLt (hpr t ▸ hpacket t)).2
  rw [Fintype.linearIndependent_iff]
  intro g hg t
  have hxinj : Function.Injective fun c : Fin k => X.toField (UInt16.ofNat c.val) := by
    intro a b hab
    exact Fin.ext (hinj _ _ (a.isLt.trans hk) (b.isLt.trans hk) hab)
  apply cauchy_combination_eq_zero Finset.univ (fun t => X.toField (UInt16.ofNat (k + r t))) g
    (Finset.univ.map ⟨_, hxinj⟩) _ (by simp) _ _ t (Finset.mem_univ t)
  · intro a _ b _ hab
    have hrab : r a = r b := by
      have := hinj _ _ (hr a) (hr b) hab
      omega
    have hlt : a.val < draws.length := h.length_eq.symm ▸ a.isLt
    exact Fin.ext ((List.getElem?_inj hlt h.nodup).mp
      ((hdraw a).trans (hrab ▸ (hdraw b).symm)))
  · intro x hx a _ heq
    obtain ⟨c, -, rfl⟩ := Finset.mem_map.mp hx
    have hc := c.isLt
    have := hinj _ _ (c.isLt.trans hk) (hr a) heq
    omega
  · intro x hx
    obtain ⟨c, -, rfl⟩ := Finset.mem_map.mp hx
    have hsum := congrFun hg c
    simpa [hcoeff] using hsum

/-- The words of source packet `c`. -/
private def sourceWords (X : ExactField F K) (w : ℕ) (window : List Packet) (c : ℕ) (q : Fin w) :
    K :=
  X.toField (sourceWord window c q)

private theorem solves_sources (X : ExactField F K)
    (h : FullDraw16 F env k n len window draws ps) (hall : ∀ d ∈ draws, d.isRepair) :
    (∀ t, ((Decoder16.systemOf X k (len / 2) ps).payload t).isSome) ∧
      Solves (Decoder16.systemOf X k (len / 2) ps).coeff
        (Decoder16.systemOf X k (len / 2) ps).values
        fun c => sourceWords X (len / 2) window c := by
  have hlen := h.len_le
  have hpayload : ∀ t : Fin k, (Decoder16.systemOf X k (len / 2) ps).payload t =
      some (∑ c, (Decoder16.systemOf X k (len / 2) ps).coeff t c •
        sourceWords X (len / 2) window c) := by
    intro t
    obtain ⟨r, p, i, -, hp, hr, hblock, rfl⟩ := h.repair_at X hall t
    have hblockOf : Decoder16.blockOf ps t =
        some (repairPayload16 F env (cauchyRow16 F k r) window k len) := by
      rw [Decoder16.blockOf, hp]
      rfl
    change (Decoder16.blockOf ps t).map _ = _
    rw [hblockOf, Option.map_some, Option.some.injEq]
    funext q
    have hq := q.isLt
    have hfold := X.map_foldl
      (fun c => F.mul ((cauchyRow16 F k r).getD c 0) (sourceWord window c q)) k
    rw [ExactField.wordVec, repairPayload16,
      wordAt_mapWords _ (by rw [Platform.alloc_length]; omega), if_pos q.isLt, Finset.sum_apply]
    refine hfold.trans (Finset.sum_congr rfl fun c _ => ?_)
    rw [X.map_mul, ← (toField_coeffOf X hr hblock c.isLt hp).1]
    rfl
  refine ⟨fun t => by rw [hpayload t]; rfl, fun t => ?_⟩
  rw [LinearSystem.values, hpayload t]
  rfl

end FullDraw16

private theorem take_eq_of_words {a b : List UInt8} {w : ℕ} (ha : 2 * w ≤ a.length)
    (hb : 2 * w ≤ b.length) (h : ∀ q < w, wordAt a q = wordAt b q) :
    a.take (2 * w) = b.take (2 * w) := by
  apply List.ext_getElem
  · simp [ha, hb]
  · intro j h1 h2
    have hj : j < 2 * w := by
      rw [List.length_take] at h1
      omega
    have hbytes := congrArg toBeBytes (h (j / 2) (by omega))
    rw [wordAt, wordAt, toBeBytes_fromBeBytes, toBeBytes_fromBeBytes, Prod.mk.injEq,
      List.getD_eq_getElem _ _ (by omega), List.getD_eq_getElem _ _ (by omega),
      List.getD_eq_getElem _ _ (by omega), List.getD_eq_getElem _ _ (by omega)] at hbytes
    rw [List.getElem_take, List.getElem_take]
    rcases Nat.mod_two_eq_zero_or_one j with hmod | hmod
    · have hj2 : 2 * (j / 2) = j := by omega
      simpa only [hj2] using hbytes.1
    · have hj2 : 2 * (j / 2) + 1 = j := by omega
      simpa only [hj2] using hbytes.2

private theorem getDecodedPackets_grid {a : ℕ → ℕ → UInt16} {b : ℕ → Option (List UInt8)}
    {d : ℕ → List UInt8} (hd : ∀ i < k, b i = some (d i)) :
    (Decoder16.getDecodedPackets
      ⟨k, (Decoder16.gridRows k a b).1, (Decoder16.gridRows k a b).2, true⟩).1 =
        (List.range k).map fun i => solvedFrom i (d i) := by
  have hb : (Decoder16.gridRows k a b).2 = (List.range k).map fun i => some (d i) :=
    List.map_congr_left fun i hi => hd i (List.mem_range.mp hi)
  have hzip : ((List.range k).map fun i => some (d i)).zipIdx =
      (List.range k).map fun i => (some (d i), i) := by
    apply List.ext_getElem
    · simp
    · intro i h1 h2
      simp
  simp only [Decoder16.getDecodedPackets, hb, hzip, List.filterMap_map]
  exact congrFun List.filterMap_eq_map _

/-- Every packet handed out carries a payload, and only repair packets bring one. -/
private theorem isRepair_of_recovers (h : FullDraw16 F env k n len window draws ps) {rs : List (Except String Bool)}
    {d : Decoder16} (hrun : (Decoder16.new k).feed F ps = .ok (rs, d)) (hcount : d.getDecodedPackets.1.length = k) :
    ∀ a ∈ draws, a.isRepair := by
  intro a ha
  have hle := Decoder16.carried_feed hrun
  rw [← Decoder16.getDecodedPackets_length, hcount] at hle
  have hzero : Decoder16.carried (Decoder16.new k).payloads = 0 := rfl
  have hfull : ps.countP (fun p => !p.isSystematic) = ps.length := by
    have hbound := ps.countP_le_length (p := fun p => !p.isSystematic)
    have hlen := h.packets_length
    omega
  obtain ⟨t, ht, rfl⟩ := List.getElem_of_mem ha
  have hp : t < ps.length := h.drawn.length_eq ▸ ht
  have hdrawn := List.forall₂_iff_get.mp h.drawn |>.2 t ht hp
  have hsys := List.countP_eq_length.mp hfull ps[t] (List.getElem_mem hp)
  cases hd : draws[t] with
  | repair r => rfl
  | source i =>
      simp only [List.get_eq_getElem, hd] at hdrawn
      have hsrc := h.window_ok.systematic _ (List.mem_of_getElem? hdrawn)
      simp [hsrc] at hsys

private theorem repairs_ok (X : ExactField F K) (h : FullDraw16 F env k n len window draws ps)
    (hall : ∀ d ∈ draws, d.isRepair) {p : Packet} (hp : p ∈ ps) :
    Decoder16.RepairOk k p ∧ ∀ d, p.data = some d → d.length = env.blockSize := by
  obtain ⟨t, ht, rfl⟩ := List.getElem_of_mem hp
  obtain ⟨r, p, i, -, hp', -, hblock, hpr⟩ := h.repair_at X hall ⟨t, h.packets_length ▸ ht⟩
  rw [List.getElem?_eq_getElem ht, Option.some.injEq] at hp'
  rw [hp', hpr]
  refine ⟨⟨rfl, _, rfl, by simpa using hblock⟩, fun d hd => ?_⟩
  rw [← Option.some.inj hd, repairPayload16, mapWords_length, Platform.alloc_length]

private theorem feed_repairs (X : ExactField F K) (h : FullDraw16 F env k n len window draws ps)
    (hall : ∀ d ∈ draws, d.isRepair) :
    ∃ a b, (Decoder16.new k).feed F ps = .ok (List.replicate (k - 1) (.ok false) ++ [.ok true],
        ⟨k, (Decoder16.gridRows k a b).1, (Decoder16.gridRows k a b).2, true⟩) ∧
      ∀ i < k, ∃ d, b i = some d ∧ d.length = env.blockSize ∧ ∀ q < len / 2, wordAt d q = sourceWord window i q := by
  have hlen := h.len_le
  obtain ⟨a, b, t, hrep, hreach, hrun⟩ := Decoder16.feed_independent X h.pos h.packets_length
    (fun p hp => (repairs_ok X h hall hp).1) (by omega : 2 * (len / 2) ≤ env.blockSize)
    (fun p hp => (repairs_ok X h hall hp).2) (h.independent X hall (len / 2))
  obtain ⟨hsome, hsolves⟩ := h.solves_sources X hall
  refine ⟨a, b, hrun, fun i hi => ?_⟩
  have hpay := hreach.payload_eq_of_complete hsome hsolves ⟨i, hi⟩
  rw [← hrep.payload ⟨i, hi⟩] at hpay
  obtain ⟨d, hd, hvec⟩ := Option.map_eq_some_iff.mp hpay
  refine ⟨d, hd, hrep.blocks i hi d hd, fun q hq => ?_⟩
  exact X.toField.injective (congrFun hvec ⟨q, hq⟩)

private theorem front_of_words (h : FullDraw16 F env k n len window draws ps) {i : ℕ} (hi : i < window.length)
    {d : List UInt8} (hlen : d.length = env.blockSize) (hwords : ∀ q < len / 2, wordAt d q = sourceWord window i q) :
    (solvedFrom i d).front len = window[i].front len := by
  have hle := h.len_le
  have heven := Nat.div_mul_cancel h.even
  obtain ⟨src, hsrc, hsrclen⟩ := (h.source_ok _ (List.getElem_mem hi)).data_eq
  have hfront := take_eq_of_words (a := d) (b := src) (w := len / 2) (by omega) (by omega)
    (fun q hq => by
      rw [hwords q hq, sourceWord, List.getElem?_eq_getElem hi, Option.map_some, Option.getD_some, hsrc,
        Option.getD_some])
  rw [Nat.mul_comm, heven] at hfront
  simp [Packet.front, solvedFrom, hsrc, hfront]

/-- When a full draw gives the window back: exactly when it holds no source packet. -/
theorem decodes_window16_iff (X : ExactField F K)
    (h : FullDraw16 F env k n len window draws ps) :
    (∃ rs d, (Decoder16.new k).feed F ps = .ok (rs, d) ∧ rs[k - 1]? = some (.ok true) ∧
        RecoversAll k len window d.getDecodedPackets.1) ↔
      ∀ d ∈ draws, d.isRepair := by
  constructor
  · rintro ⟨rs, d, hrun, -, hcount, -⟩
    exact isRepair_of_recovers h hrun hcount
  · intro hall
    obtain ⟨a, b, hrun, hsolved⟩ := feed_repairs X h hall
    choose! d hd using hsolved
    refine ⟨_, _, hrun, by simp, ?_⟩
    rw [getDecodedPackets_grid fun i hi => (hd i hi).1]
    refine ⟨by simp, fun i hi => ?_⟩
    have hi' : i < window.length := h.window_ok.length_eq.symm ▸ hi
    obtain ⟨-, hdlen, hwords⟩ := hd i hi
    exact ⟨solvedFrom i (d i), window[i], by simp [hi], List.getElem?_eq_getElem hi', rfl,
      front_of_words h hi' hdlen hwords⟩

/-! ## A field of words -/

/-- Exact arithmetic modulo the polynomial `0x1100b`. -/
def exactArith : Gf16Arith := ⟨GF65536.exactMul, GF65536.exactInv⟩

noncomputable def exactField : ExactField exactArith GF65536 where
  toField := ⟨GF65536.mk, GF65536.word, fun _ => rfl, fun _ => rfl⟩
  map_xor := GF65536.mk_xor
  map_mul := GF65536.mk_exactMul
  map_inv _ := GF65536.mk_exactInv

/-- A window of two packets of one word, and its first two repair packets. -/
def wordWindow : List Packet :=
  [⟨0, some [1, 2, 0, 0], 2, true, none, 0⟩, ⟨1, some [3, 4, 0, 0], 2, true, none, 0⟩]

def wordRepair : Packet := ⟨2, some [241, 132, 0, 0], 2, false, some [136, 5, 240, 6], 4⟩

def wordSecondRepair : Packet := ⟨3, some [1, 124, 0, 0], 2, false, some [240, 6, 136, 5], 4⟩

private theorem wordDraw {a b : Draw} {p q : Packet} (hne : a ≠ b)
    (ha : Drawn16 exactArith ⟨.scalar, 4⟩ 2 4 wordWindow a p)
    (hb : Drawn16 exactArith ⟨.scalar, 4⟩ 2 4 wordWindow b q) :
    FullDraw16 exactArith ⟨.scalar, 4⟩ 2 4 2 wordWindow [a, b] [p, q] where
  pos := by decide
  window_ok := ⟨rfl, by decide, by decide⟩
  source_ok := by
    intro p hp
    simp only [wordWindow, List.mem_cons, List.not_mem_nil, or_false] at hp
    rcases hp with rfl | rfl <;> exact ⟨rfl, ⟨_, rfl, rfl⟩, by decide⟩
  even := by decide
  nodup := by simp [hne]
  length_eq := rfl
  drawn := .cons ha (.cons hb .nil)

theorem decodes_window16_iff_two_repairs :
    ∃ rs d, (Decoder16.new 2).feed exactArith [wordSecondRepair, wordRepair] = .ok (rs, d) ∧
      rs[1]? = some (.ok true) ∧ RecoversAll 2 2 wordWindow d.getDecodedPackets.1 :=
  (decodes_window16_iff exactField (wordDraw (a := .repair 1) (b := .repair 0) (by decide)
    ⟨by decide, by decide +kernel⟩ ⟨by decide, by decide +kernel⟩)).mpr (by decide)

/-- A source packet and a repair packet: the last call succeeds, and one packet comes out. -/
theorem decodes_window16_fails_source_repair :
    FullDraw16 exactArith ⟨.scalar, 4⟩ 2 4 2 wordWindow [.source 0, .repair 0]
        [⟨0, some [1, 2, 0, 0], 2, true, none, 0⟩, wordRepair] ∧
      ¬ ∃ rs d, (Decoder16.new 2).feed exactArith
          [⟨0, some [1, 2, 0, 0], 2, true, none, 0⟩, wordRepair] = .ok (rs, d) ∧
        rs[1]? = some (.ok true) ∧ RecoversAll 2 2 wordWindow d.getDecodedPackets.1 := by
  refine ⟨wordDraw (by decide) rfl ⟨by decide, by decide +kernel⟩, ?_⟩
  rintro ⟨rs, d, hrun, -, hcount, -⟩
  obtain ⟨x, hx, hlen⟩ := exists_ok_of_any
    (x := (Decoder16.new 2).feed exactArith
      [⟨0, some [1, 2, 0, 0], 2, true, none, 0⟩, wordRepair])
    (p := fun x => x.2.getDecodedPackets.1.length == 1) (by decide +kernel)
  rw [hrun, Except.ok.injEq] at hx
  subst hx
  rw [hcount] at hlen
  exact absurd hlen (by decide)

end QuicFuscate.Fec
