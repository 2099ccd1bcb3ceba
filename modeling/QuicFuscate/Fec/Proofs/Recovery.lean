import QuicFuscate.Fec.Proofs.CauchyMinors
import QuicFuscate.Fec.Proofs.Duplicates
import QuicFuscate.Fec.Proofs.SlidingWindow

/-!
# Recovery of a window

A receiver gets `k` different packets of one window, some of them sources and the others repair
packets.  Their rows are rows of a systematic maximum-distance code, so elimination always reaches
full rank.  The payloads follow only in part: a source row carries no payload into the elimination,
and what the sources contribute to the repair packets is never subtracted.
-/

namespace QuicFuscate.Fec

open Framework CsrMatrix

/-- A packet of the coded window: a source packet by id, or a repair packet by repair index. -/
inductive Draw
  | source (i : ℕ)
  | repair (r : ℕ)
  deriving DecidableEq, Repr

def Draw.isRepair : Draw → Bool
  | source _ => false
  | repair _ => true

structure SourceWindow (k : ℕ) (window : List Packet) : Prop where
  length_eq : window.length = k
  id_eq : ∀ i (h : i < window.length), window[i].id = i
  systematic : ∀ p ∈ window, p.isSystematic = true

/-- `p` is the packet that a draw names. -/
def Drawn (env : Platform) (k n : ℕ) (window : List Packet) : Draw → Packet → Prop
  | .source i, p => window[i]? = some p
  | .repair r, p => k + r ≤ 255 ∧
      (encoderAfter k n window).generateRepairPacket env r = .ok (some p)

variable {B k n : ℕ} {window ps : List Packet} {draws : List Draw}

/-! ## What was drawn -/

theorem Drawn.source_spec (hwin : SourceWindow k window) {i : ℕ} {p : Packet}
    (h : Drawn ⟨.scalar, B⟩ k n window (.source i) p) :
    i < k ∧ p.isSystematic = true ∧ p.id = i ∧ window[i]? = some p := by
  obtain ⟨hi, rfl⟩ := List.getElem?_eq_some_iff.mp h
  exact ⟨hwin.length_eq ▸ hi, hwin.systematic _ (List.getElem_mem hi), hwin.id_eq i hi, h⟩

private theorem encoderAfter_window (hwin : SourceWindow k window) (hk : 1 ≤ k) :
    encoderAfter k n window = ⟨k, n, window⟩ := by
  rw [encoderAfter_eq hk, hwin.length_eq, Nat.sub_self, List.drop_zero]

theorem Drawn.repair_spec (hwin : SourceWindow k window) (hk : 1 ≤ k) {r : ℕ} {p : Packet}
    (h : Drawn ⟨.scalar, B⟩ k n window (.repair r) p) :
    k + r ≤ 255 ∧ k ≤ B ∧ p.isSystematic = false ∧
      p.coefficients = some (cauchyRow k r ++ (Platform.alloc ⟨.scalar, B⟩).drop k) ∧
      p.coeffLen = k ∧ ∃ d, p.data = some d ∧ d.length = B := by
  obtain ⟨hr, hgen⟩ := h
  rw [encoderAfter_window hwin hk] at hgen
  exact ⟨hr, generateRepairPacket_shape (e := ⟨k, n, window⟩) hwin.length_eq hk
    (pointsDistinct_of_le hr) hgen⟩

theorem Drawn.packetOk (hwin : SourceWindow k window) (hk : 1 ≤ k) {d : Draw} {p : Packet}
    (h : Drawn ⟨.scalar, B⟩ k n window d p) : PacketOk k B p := by
  cases d with
  | source i =>
      have hsys := (h.source_spec hwin).2.1
      exact ⟨by simp [hsys], by simp [hsys], by simp [hsys]⟩
  | repair r =>
      obtain ⟨-, -, -, hcoeffs, hlen, d, hd, hdlen⟩ := h.repair_spec hwin hk
      refine ⟨fun _ => ⟨_, hcoeffs, by simp [hlen]⟩, fun _ => hlen, fun _ d' hd' => ?_⟩
      rw [hd, Option.some.injEq] at hd'
      exact hd' ▸ hdlen

theorem Drawn.coeffSymbol_source (hwin : SourceWindow k window) {i : ℕ} {p : Packet}
    (h : Drawn ⟨.scalar, B⟩ k n window (.source i) p) (c : ℕ) :
    coeffSymbol k p c = if c = i then 1 else 0 := by
  obtain ⟨hi, hsys, hid, -⟩ := h.source_spec hwin
  rw [coeffSymbol, if_pos hsys, hid, Nat.mod_eq_of_lt hi]

theorem Drawn.coeffSymbol_repair (hwin : SourceWindow k window) (hk : 1 ≤ k) {r : ℕ}
    {p : Packet} (h : Drawn ⟨.scalar, B⟩ k n window (.repair r) p) (c : ℕ) :
    coeffSymbol k p c = (cauchyRow k r).getD c 0 := by
  obtain ⟨-, -, hsys, hcoeffs, hlen, -⟩ := h.repair_spec hwin hk
  simp [coeffSymbol, hsys, hcoeffs, hlen, List.take_left']

/-! ## Slots -/

def drawnSlots (k : ℕ) (window : List Packet) (draws : List Draw) : List (Option Packet) :=
  (List.range k).map fun i => if .source i ∈ draws then window[i]? else none

private theorem slotsAfter_drawnSlots (hwin : SourceWindow k window) (hk : 1 ≤ k)
    {d : Draw} {p : Packet} (h : Drawn ⟨.scalar, B⟩ k n window d p) :
    slotsAfter k (drawnSlots k window draws) p = drawnSlots k window (draws ++ [d]) := by
  cases d with
  | source i =>
      obtain ⟨hi, hsys, hid, hget⟩ := h.source_spec hwin
      rw [slotsAfter, if_pos hsys, hid, Nat.mod_eq_of_lt hi]
      apply List.ext_getElem
      · simp [drawnSlots]
      · intro j h1 h2
        rw [List.getElem_set]
        by_cases hji : i = j
        · subst hji
          simp [drawnSlots, hget]
        · simp [drawnSlots, hji, Ne.symm hji]
  | repair r =>
      have hsys := (h.repair_spec hwin hk).2.2.1
      rw [slotsAfter, if_neg (by simp [hsys])]
      simp [drawnSlots]

private theorem not_repeated (hwin : SourceWindow k window) (hk : 1 ≤ k) {d : Draw}
    {p : Packet} (h : Drawn ⟨.scalar, B⟩ k n window d p) (hd : d ∉ draws) :
    ¬ Repeated k (drawnSlots k window draws) p := by
  cases d with
  | source i =>
      obtain ⟨hi, hsys, hid, hget⟩ := h.source_spec hwin
      rintro ⟨-, hsome⟩
      rw [hid, Nat.mod_eq_of_lt hi] at hsome
      simp [drawnSlots, hi, hd] at hsome
  | repair r =>
      rintro ⟨hsys, -⟩
      simp [(h.repair_spec hwin hk).2.2.1] at hsys

private theorem accepted_of_draws (pre : List Draw) (hwin : SourceWindow k window) (hk : 1 ≤ k)
    (hnodup : (pre ++ draws).Nodup)
    (hps : List.Forall₂ (Drawn ⟨.scalar, B⟩ k n window) draws ps) :
    accepted k (drawnSlots k window pre) ps = ps ∧
      fillSlots k (drawnSlots k window pre) ps = drawnSlots k window (pre ++ draws) := by
  induction hps generalizing pre with
  | nil => simp [accepted, fillSlots]
  | @cons d p draws ps h hps ih =>
      have hsplit : pre ++ d :: draws = (pre ++ [d]) ++ draws := by simp
      have hd : d ∉ pre := fun hmem =>
        (List.disjoint_of_nodup_append hnodup) hmem (List.mem_cons_self)
      rw [hsplit] at hnodup
      obtain ⟨hacc, hfill⟩ := ih (pre ++ [d]) hnodup
      constructor
      · rw [accepted, if_neg (not_repeated hwin hk h hd), slotsAfter_drawnSlots hwin hk h, hacc]
      · rw [fillSlots, List.foldl_cons, slotsAfter_drawnSlots hwin hk h, hsplit]
        exact hfill

private theorem drawnSlots_nil (k : ℕ) (window : List Packet) :
    drawnSlots k window [] = List.replicate k none := by
  simp [drawnSlots]

/-! ## The drawn rows form a systematic code -/

/-- The source position of a row, if it is a source row. -/
def kindOf (k : ℕ) (draws : List Draw) (t : Fin k) : Option (Fin k) :=
  match draws[t.val]? with
  | some (.source i) => if h : i < k then some ⟨i, h⟩ else none
  | _ => none

/-- A full set of different draws with their packets. -/
structure FullDraw (B k n : ℕ) (window : List Packet) (draws : List Draw) (ps : List Packet) :
    Prop where
  pos : 1 ≤ k
  le : k ≤ 255
  window_ok : SourceWindow k window
  nodup : draws.Nodup
  length_eq : draws.length = k
  drawn : List.Forall₂ (Drawn ⟨.scalar, B⟩ k n window) draws ps

namespace FullDraw

theorem packets_length (h : FullDraw B k n window draws ps) : ps.length = k :=
  h.drawn.length_eq.symm.trans h.length_eq

theorem at_position (h : FullDraw B k n window draws ps) (t : Fin k) :
    ∃ d p, draws[t.val]? = some d ∧ ps[t.val]? = some p ∧
      Drawn ⟨.scalar, B⟩ k n window d p := by
  have hd : t.val < draws.length := h.length_eq.symm ▸ t.isLt
  have hp : t.val < ps.length := h.packets_length.symm ▸ t.isLt
  exact ⟨draws[t.val], ps[t.val], List.getElem?_eq_getElem hd, List.getElem?_eq_getElem hp,
    List.forall₂_iff_get.mp h.drawn |>.2 t.val hd hp⟩

private theorem kind_source (h : FullDraw B k n window draws ps) {t j : Fin k}
    (hkind : kindOf k draws t = some j) :
    draws[t.val]? = some (.source j.val) ∧
      ∃ p, ps[t.val]? = some p ∧ Drawn ⟨.scalar, B⟩ k n window (.source j.val) p := by
  obtain ⟨d, p, hd, hp, hdrawn⟩ := h.at_position t
  rw [kindOf, hd] at hkind
  cases d with
  | source i =>
      simp only at hkind
      split at hkind
      · obtain rfl := Option.some.inj hkind
        exact ⟨hd, p, hp, hdrawn⟩
      · simp at hkind
  | repair r => simp at hkind

private theorem kind_repair (h : FullDraw B k n window draws ps) {t : Fin k}
    (hkind : kindOf k draws t = none) :
    ∃ r p, draws[t.val]? = some (.repair r) ∧ ps[t.val]? = some p ∧
      Drawn ⟨.scalar, B⟩ k n window (.repair r) p := by
  obtain ⟨d, p, hd, hp, hdrawn⟩ := h.at_position t
  rw [kindOf, hd] at hkind
  cases d with
  | source i => simp [(hdrawn.source_spec h.window_ok).1] at hkind
  | repair r => exact ⟨r, p, hd, hp, hdrawn⟩

private theorem kind_of_repair {t : Fin k} {r : ℕ} (hd : draws[t.val]? = some (.repair r)) :
    kindOf k draws t = none := by
  rw [kindOf, hd]

private theorem kind_of_source {t : Fin k} {i : ℕ} (hi : i < k)
    (hd : draws[t.val]? = some (.source i)) : kindOf k draws t = some ⟨i, hi⟩ := by
  rw [kindOf, hd]
  simp [hi]

private theorem getElem?_inj (h : FullDraw B k n window draws ps) {t u : Fin k} {d : Draw}
    (ht : draws[t.val]? = some d) (hu : draws[u.val]? = some d) : t = u := by
  have hlt : t.val < draws.length := h.length_eq.symm ▸ t.isLt
  exact Fin.ext ((List.getElem?_inj hlt h.nodup).mp (ht.trans hu.symm))

private theorem cauchy_maximumDistance (h : FullDraw B k n window draws ps) :
    MaximumDistance {t | kindOf k draws t = none} (coeffRows k ps) := by
  intro T hT C hcard w hzero
  have hrepair : ∀ t ∈ T, ∃ r p, draws[t.val]? = some (.repair r) ∧ ps[t.val]? = some p ∧
      Drawn ⟨.scalar, B⟩ k n window (.repair r) p := by
    intro t ht
    exact h.kind_repair (by simpa using hT ht)
  choose! r p hdraw hpacket hdrawn using hrepair
  have hpoint : ∀ t ∈ T, k + r t ≤ 255 := fun t ht =>
    ((hdrawn t ht).repair_spec h.window_ok h.pos).1
  apply cauchyRow_independent (r := r) _ hpoint hcard
  · intro c hc
    rw [← hzero c hc]
    apply Finset.sum_congr rfl
    intro t ht
    rw [coeffRows, hpacket t ht, Option.map_some, Option.getD_some, (hdrawn t ht).coeffSymbol_repair h.window_ok h.pos]
  · intro t ht u hu htu
    exact h.getElem?_inj (hdraw t ht) (htu ▸ hdraw u hu)

private theorem payload_at {w : ℕ} {t : Fin k} {p : Packet} (hp : ps[t.val]? = some p) :
    (systemOf k w (ps.map (packetRow k))).payload t =
      (packetRow k p).payload.map (blockVec w) := by
  simp [systemOf, hp]

def systematicRows (h : FullDraw B k n window draws ps) (w : ℕ) :
    SystematicRows (systemOf k w (ps.map (packetRow k))) where
  kind := kindOf k draws
  origin_eq := rfl
  kind_inj hs ht := h.getElem?_inj (h.kind_source hs).1 (h.kind_source ht).1
  unit_row := by
    intro t j ht c
    obtain ⟨-, p, hp, hdrawn⟩ := h.kind_source ht
    rw [systemOf_coeff, coeffRows, hp, Option.map_some, Option.getD_some,
      hdrawn.coeffSymbol_source h.window_ok]
    by_cases hcj : c = j
    · simp [hcj, GF256.mk_one]
    · have hval : c.val ≠ j.val := fun heq => hcj (Fin.ext heq)
      simp [hcj, hval, GF256.mk_zero]
  unit_payload := by
    intro t j ht
    obtain ⟨-, p, hp, hdrawn⟩ := h.kind_source ht
    rw [payload_at hp, packetRow, if_pos (hdrawn.source_spec h.window_ok).2.1]
    rfl
  repair_payload := by
    intro t ht
    obtain ⟨r, p, -, hp, hdrawn⟩ := h.kind_repair ht
    obtain ⟨-, -, hsys, -, -, d, hd, -⟩ := hdrawn.repair_spec h.window_ok h.pos
    rw [payload_at hp]
    simp [packetRow, hsys, hd]
  maximumDistance := by
    rw [systemOf_coeff]
    exact h.cauchy_maximumDistance

/-- The run of a full draw: `k - 1` calls report nothing, the last one reports success, and the
empty slots are filled from the eliminated system. -/
theorem feed (h : FullDraw B k n window draws ps) {w : ℕ} (hw : w ≤ B) :
    ∃ g t, Represents B g t ∧ (systemOf k w (ps.map (packetRow k))).Reaches k t ∧
      (Decoder.new k).feed ⟨.scalar, B⟩ ps =
        .ok (List.replicate (k - 1) (.ok false) ++ [.ok true],
          { collecting k (filledFrom k (drawnSlots k window draws) g) [] with
            decodingMatrix := ofFn k g, isDecoded := true }) := by
  have hpk : ∀ p ∈ ps, PacketOk k B p := by
    intro p hp
    obtain ⟨i, hi, rfl⟩ := List.getElem_of_mem hp
    obtain ⟨d, q, -, hq, hdrawn⟩ := h.at_position ⟨i, h.packets_length ▸ hi⟩
    rw [List.getElem?_eq_getElem hi, Option.some.injEq] at hq
    exact hq ▸ hdrawn.packetOk h.window_ok h.pos
  obtain ⟨hacc, hfill⟩ := accepted_of_draws [] h.window_ok h.pos h.nodup h.drawn
  rw [drawnSlots_nil] at hacc hfill
  have htake : (accepted k (List.replicate k none) ps).take k = ps := by
    rw [hacc, List.take_of_length_le h.packets_length.le]
  obtain ⟨pre, p, post, hsplit, hfirst, hrun⟩ := feed_full ⟨.scalar, B⟩ hpk
    (List.length_replicate (n := k) (a := none)) (show [].length < k from h.pos)
    (by simp [hacc, h.packets_length])
  rw [List.length_nil, Nat.sub_zero, htake] at hfirst hrun
  rw [hfill] at hrun
  have hlens : pre.length = k - 1 ∧ post = [] := by
    have h1 := (accepted_sublist k (List.replicate k none) pre).length_le
    have h2 := congrArg List.length hfirst
    have h3 := congrArg List.length hsplit
    have hlen := h.packets_length
    simp only [List.length_append, List.length_cons, List.length_nil] at h2 h3
    have hpost : post.length = 0 := by omega
    exact ⟨by omega, List.length_eq_zero_iff.mp hpost⟩
  have hrowsLen : (ps.map (packetRow k)).length = k := by simp [h.packets_length]
  have hok : ∀ r ∈ ps.map (packetRow k), RowOk k B r := by
    intro r hr
    obtain ⟨q, hq, rfl⟩ := List.mem_map.mp hr
    exact rowOk_packetRow (hpk q hq)
  rcases tryDecode_eliminates (drawnSlots k window draws)
      (h.le.trans (by decide)) hw hrowsLen (by simp [drawnSlots]) hok with
    ⟨g, t, hg, hreach, htry⟩ | ⟨g, hdep, -⟩
  · refine ⟨g, t, hg, hreach, ?_⟩
    have hfeed := hrun htry (.inl rfl) rfl
    rw [hlens.1, hlens.2] at hfeed
    exact hfeed
  · exact absurd (h.systematicRows w).linearIndependent hdep

end FullDraw

/-- Any `k` different packets of a coded window reach full rank with the last of them, in whatever
mixture and order. -/
theorem feed_full_rank (h : FullDraw B k n window draws ps) :
    ∃ d, (Decoder.new k).feed ⟨.scalar, B⟩ ps =
      .ok (List.replicate (k - 1) (.ok false) ++ [.ok true], d) := by
  obtain ⟨g, t, -, -, hrun⟩ := h.feed (Nat.zero_le B)
  exact ⟨_, hrun⟩

/-- The window of one-byte packets `5, 9`. -/
def sampleWindow : List Packet := [sampleSource 0 5, sampleSource 1 9]

def sampleSecondRepair : Packet := ⟨3, some [137, 0], 1, false, some [244, 142], 2⟩

private theorem sampleWindow_ok : SourceWindow 2 sampleWindow where
  length_eq := rfl
  id_eq := by decide
  systematic := by decide

private theorem sampleDraw {a b : Draw} {p q : Packet} (hne : a ≠ b)
    (ha : Drawn ⟨.scalar, 2⟩ 2 4 sampleWindow a p) (hb : Drawn ⟨.scalar, 2⟩ 2 4 sampleWindow b q) :
    FullDraw 2 2 4 sampleWindow [a, b] [p, q] where
  pos := by decide
  le := by decide
  window_ok := sampleWindow_ok
  nodup := by simp [hne]
  length_eq := rfl
  drawn := .cons ha (.cons hb .nil)

theorem feed_full_rank_repair_source :
    ∃ d, (Decoder.new 2).feed ⟨.scalar, 2⟩ [sampleRepair, sampleSource 1 9] =
      .ok ([.ok false, .ok true], d) :=
  feed_full_rank (sampleDraw (a := .repair 0) (b := .source 1) (by decide)
    ⟨by decide, by decide +kernel⟩ rfl)

/-! ## What the slots hold afterwards -/

def Packet.front (p : Packet) (len : ℕ) : Option (List UInt8) := p.data.map (List.take len)

/-- The output is the window: `k` packets, the one at position `i` with id `i` and the first `len`
bytes of source packet `i`. -/
def RecoversAll (k len : ℕ) (window out : List Packet) : Prop :=
  out.length = k ∧ ∀ i < k, ∃ p q, out[i]? = some p ∧ window[i]? = some q ∧ p.id = i ∧
    p.front len = q.front len

/-- No source packet comes after more repair packets than there are missing ids below its own. -/
def OrderedDraws (draws : List Draw) : Prop :=
  ∀ p i : ℕ, draws[p]? = some (.source i) →
    ((draws.take p).filter Draw.isRepair).length ≤
      ((List.range i).filter fun c => .source c ∉ draws).length

/-- The received sources contribute nothing to the received repair packets. -/
def SilentSources (k len : ℕ) (window : List Packet) (draws : List Draw) : Prop :=
  ∀ r, .repair r ∈ draws → ∀ j < len, (List.range k).foldl (fun acc i => acc ^^^
    if .source i ∈ draws then gfMulTable ((cauchyRow k r).getD i 0) (sourceByte window i j)
    else 0) 0 = 0

variable {len : ℕ}

private theorem blockVec_eq_iff {a b : List UInt8} (ha : len ≤ a.length) (hb : len ≤ b.length) :
    blockVec len a = blockVec len b ↔ a.take len = b.take len := by
  constructor
  · intro h
    apply List.ext_getElem
    · simp [ha, hb]
    · intro j h1 h2
      have hj : j < len := by
        rw [List.length_take] at h1
        omega
      have hbyte := congrArg GF256.byte (congrFun h ⟨j, hj⟩)
      simp only [blockVec] at hbyte
      rw [List.getD_eq_getElem _ _ (by omega), List.getD_eq_getElem _ _ (by omega)] at hbyte
      simpa using hbyte
  · intro h
    funext j
    have hget := congrArg (fun xs => xs.getD j.val 0) h
    simp only [List.getD_eq_getElem?_getD, List.getElem?_take, j.isLt, if_true] at hget
    simp [blockVec, hget]

private theorem getElem?_filterMap_id {slots : List (Option Packet)}
    (h : ∀ x ∈ slots, x.isSome) (i : ℕ) : (slots.filterMap id)[i]? = slots[i]?.join := by
  induction slots generalizing i with
  | nil => simp
  | cons x xs ih =>
      obtain ⟨p, hp⟩ := Option.isSome_iff_exists.mp (h x (by simp))
      subst hp
      cases i with
      | zero => rfl
      | succ i =>
          have htail := ih (fun y hy => h y (by simp [hy])) i
          simpa using htail

private theorem filledFrom_getElem? {g : ℕ → SparseRow} {i : ℕ} (hi : i < k) :
    (filledFrom k (drawnSlots k window draws) g)[i]? =
      some ((if .source i ∈ draws then window[i]? else none).or
        ((g i).payload.map (solvedFrom i))) := by
  simp [filledFrom, drawnSlots, hi]

/-- The bytes of source packet `c` as a vector. -/
private def sourceVec (len : ℕ) (window : List Packet) (c : ℕ) (j : Fin len) : GF256 :=
  ⟨sourceByte window c j⟩

private theorem sourceVec_eq {c : ℕ} {q : Packet} {d : List UInt8} (hq : window[c]? = some q)
    (hd : q.data = some d) : sourceVec len window c = blockVec len d := by
  funext j
  simp [sourceVec, sourceByte, hq, Packet.byteAt, hd, blockVec]

/-- A solved packet has the front of its source exactly when the solved bytes are the source's. -/
private theorem front_solvedFrom_iff {c : ℕ} {q : Packet} {data : List UInt8}
    (hq : window[c]? = some q) (hok : SourceOk B len q) (hdata : data.length = B) :
    (solvedFrom c data).front len = q.front len ↔ blockVec len data = sourceVec len window c := by
  obtain ⟨d, hd, hdlen⟩ := hok.data_eq
  have hle := hok.len_le
  rw [sourceVec_eq hq hd, blockVec_eq_iff (by omega) (by omega)]
  simp [Packet.front, solvedFrom, hd]

/-- The output is complete exactly when every missing slot got the bytes of its source. -/
private theorem recoversAll_iff (draws : List Draw) {g : ℕ → SparseRow}
    (hwin : SourceWindow k window)
    (hsrc : ∀ p ∈ window, SourceOk B len p) (hg : ∀ t < k, RowOk k B (g t)) :
    RecoversAll k len window
        ((filledFrom k (drawnSlots k window draws) g).filterMap id) ↔
      ∀ c < k, .source c ∉ draws →
        (g c).payload.map (blockVec len) = some (sourceVec len window c) := by
  have hwindow : ∀ i < k, ∃ q, window[i]? = some q ∧ q.id = i ∧ SourceOk B len q := by
    intro i hi
    have hlt : i < window.length := hwin.length_eq.symm ▸ hi
    exact ⟨window[i], List.getElem?_eq_getElem hlt, hwin.id_eq i hlt,
      hsrc _ (List.getElem_mem hlt)⟩
  have hlen : (filledFrom k (drawnSlots k window draws) g).length = k := by
    simp [filledFrom, drawnSlots]
  constructor
  · rintro ⟨hcount, hall⟩ c hc hmissing
    have hsome := List.filterMap_length_eq_length.mp (hcount.trans hlen.symm)
    obtain ⟨p, q, hp, hq, -, hfront⟩ := hall c hc
    obtain ⟨q', hq', -, hok⟩ := hwindow c hc
    obtain rfl : q = q' := Option.some.inj (hq.symm.trans hq')
    rw [getElem?_filterMap_id hsome, filledFrom_getElem? hc, if_neg hmissing, Option.none_or,
      Option.join_some] at hp
    obtain ⟨data, hdata, rfl⟩ := Option.map_eq_some_iff.mp hp
    rw [hdata, Option.map_some, Option.some.injEq,
      ← front_solvedFrom_iff hq hok ((hg c hc).payload_length data hdata)]
    exact hfront
  · intro hall
    have hslot : ∀ c < k, ∃ p q, (filledFrom k (drawnSlots k window draws) g)[c]? = some (some p) ∧
        window[c]? = some q ∧ p.id = c ∧ p.front len = q.front len := by
      intro c hc
      obtain ⟨q, hq, hid, hok⟩ := hwindow c hc
      by_cases hdrawn : .source c ∈ draws
      · exact ⟨q, q, by rw [filledFrom_getElem? hc, if_pos hdrawn, hq, Option.some_or], hq, hid, rfl⟩
      · obtain ⟨data, hdata, hvec⟩ := Option.map_eq_some_iff.mp (hall c hc hdrawn)
        refine ⟨solvedFrom c data, q, ?_, hq, rfl, ?_⟩
        · rw [filledFrom_getElem? hc, if_neg hdrawn, hdata]
          rfl
        · exact (front_solvedFrom_iff hq hok ((hg c hc).payload_length data hdata)).mpr hvec
    have hsome : ∀ x ∈ filledFrom k (drawnSlots k window draws) g, (id x).isSome := by
      intro x hx
      obtain ⟨i, hi, rfl⟩ := List.getElem_of_mem hx
      obtain ⟨p, -, hp, -⟩ := hslot i (hlen ▸ hi)
      rw [List.getElem?_eq_getElem hi, Option.some.injEq] at hp
      rw [hp]
      rfl
    refine ⟨(List.filterMap_length_eq_length.mpr hsome).trans hlen, fun i hi => ?_⟩
    obtain ⟨p, q, hp, hrest⟩ := hslot i hi
    exact ⟨p, q, by rw [getElem?_filterMap_id hsome, hp]; rfl, hrest⟩

/-! ## The abstract conditions on the draws -/

private theorem card_filter_fin {n : ℕ} (hn : n ≤ k) (Q : ℕ → Bool) :
    (Finset.univ.filter fun t : Fin k => t.val < n ∧ Q t.val).card =
      ((List.range n).filter Q).length := by
  rw [← List.toFinset_card_of_nodup (List.nodup_range.filter _)]
  apply Finset.card_bij fun (t : Fin k) _ => t.val
  · intro t ht
    simpa using ht
  · intro a _ b _ hab
    exact Fin.ext hab
  · intro c hc
    simp only [List.mem_toFinset, List.mem_filter, List.mem_range] at hc
    exact ⟨⟨c, by omega⟩, by simpa using hc, rfl⟩

private theorem filter_take_length (xs : List Draw) (n : ℕ) :
    ((xs.take n).filter Draw.isRepair).length =
      ((List.range n).filter fun t => xs[t]?.any Draw.isRepair).length := by
  induction n with
  | zero => simp
  | succ n ih =>
      rw [List.take_add_one, List.filter_append, List.length_append, ih, List.range_succ,
        List.filter_append, List.length_append]
      cases hx : xs[n]? with
      | none => simp [hx]
      | some d => cases hd : d.isRepair <;> simp [hx, hd]

namespace FullDraw

private theorem mem_missing_iff (h : FullDraw B k n window draws ps) {w : ℕ} {c : Fin k} :
    c ∈ (h.systematicRows w).missing ↔ .source c.val ∉ draws := by
  rw [SystematicRows.mem_missing]
  constructor
  · intro hall hmem
    obtain ⟨t, ht, hget⟩ := List.getElem_of_mem hmem
    have hk : t < k := h.length_eq ▸ ht
    have hd : draws[t]? = some (.source c.val) := by rw [List.getElem?_eq_getElem ht, hget]
    exact hall ⟨t, hk⟩ (kind_of_source (t := ⟨t, hk⟩) c.isLt hd)
  · intro hnot t ht
    exact hnot (List.mem_of_getElem? (h.kind_source ht).1)

private theorem kind_eq_none_iff (h : FullDraw B k n window draws ps) (t : Fin k) :
    kindOf k draws t = none ↔ draws[t.val]?.any Draw.isRepair = true := by
  constructor
  · intro ht
    obtain ⟨r, p, hd, -⟩ := h.kind_repair ht
    rw [hd]
    rfl
  · intro ht
    obtain ⟨d, hd, hrep⟩ := (Option.any_eq_true _ _).mp ht
    cases d with
    | source i => simp [Draw.isRepair] at hrep
    | repair r => exact kind_of_repair hd

private theorem repairsBefore_eq (h : FullDraw B k n window draws ps) {w : ℕ} (p : Fin k) :
    (h.systematicRows w).repairsBefore p =
      ((draws.take p).filter Draw.isRepair).length := by
  rw [filter_take_length, ← card_filter_fin p.isLt.le, SystematicRows.repairsBefore]
  congr 1
  ext t
  simp only [Finset.mem_filter, SystematicRows.mem_repairs, Finset.mem_univ, true_and]
  exact and_comm.trans (and_congr_right fun _ => h.kind_eq_none_iff t)

private theorem missingBelow_eq (h : FullDraw B k n window draws ps) {w : ℕ} (j : Fin k) :
    (h.systematicRows w).missingBelow j =
      ((List.range j).filter fun c => .source c ∉ draws).length := by
  rw [← card_filter_fin j.isLt.le, SystematicRows.missingBelow]
  congr 1
  ext c
  simp only [Finset.mem_filter, h.mem_missing_iff, Finset.mem_univ, true_and, decide_eq_true_eq]
  exact and_comm

private theorem orderedBelow_iff (h : FullDraw B k n window draws ps) {w : ℕ} :
    (h.systematicRows w).OrderedBelow k ↔ OrderedDraws draws := by
  constructor
  · intro hord p i hp
    have hpk : p < k := h.length_eq ▸ (List.getElem?_eq_some_iff.mp hp).1
    obtain ⟨d, q, hd, -, hdrawn⟩ := h.at_position ⟨p, hpk⟩
    obtain rfl : d = .source i := Option.some.inj (hd.symm.trans hp)
    have hi := (hdrawn.source_spec h.window_ok).1
    have hle := hord ⟨p, hpk⟩ ⟨i, hi⟩ (kind_of_source (t := ⟨p, hpk⟩) hi hp) hi
    rwa [h.repairsBefore_eq, h.missingBelow_eq] at hle
  · intro hord p j hkind _
    rw [h.repairsBefore_eq, h.missingBelow_eq]
    exact hord p j (h.kind_source hkind).1

private theorem repair_payload_eq (h : FullDraw B k n window draws ps)
    (hsrc : ∀ p ∈ window, SourceOk B len p) {t : Fin k}
    (ht : kindOf k draws t = none) :
    (systemOf k len (ps.map (packetRow k))).payload t =
      some (∑ c, (systemOf k len (ps.map (packetRow k))).coeff t c • sourceVec len window c) := by
  obtain ⟨r, p, -, hp, hdrawn⟩ := h.kind_repair ht
  obtain ⟨hr, hblock, hsys, -⟩ := hdrawn.repair_spec h.window_ok h.pos
  have hgen := hdrawn.2
  have hwl := h.window_ok.length_eq
  have hlast : ∃ last, window.getLast? = some last := by
    have hne : window ≠ [] := by
      rintro rfl
      have hpos := h.pos
      simp at hwl
      omega
    exact ⟨_, List.getLast?_eq_some_getLast hne⟩
  obtain ⟨last, hlast⟩ := hlast
  have hlen : len ≤ B := (hsrc _ (List.mem_of_getLast? hlast)).len_le
  have hemit : Encoder.generateRepairPacket ⟨.scalar, B⟩ ⟨k, n, window⟩ r = _ :=
    generateRepairPacket_ok hwl hlast hsrc (pointsDistinct_of_le hr) hblock
  rw [encoderAfter_window h.window_ok h.pos, hemit, Except.ok.injEq,
    Option.some.injEq] at hgen
  rw [payload_at hp, systemOf_coeff, packetRow, if_neg (by simp [hsys]), ← hgen]
  refine congrArg some ?_
  funext j
  have hj : j.val < B := by omega
  have hsum := GF256.mk_foldl_xor
    (fun c => gfMulTable ((cauchyRow k r).getD c 0) (sourceByte window c j)) k
  have hcomm : combinedByte .scalar (cauchyRow k r) window k j =
      (List.range k).foldl (fun acc c =>
        acc ^^^ gfMulTable ((cauchyRow k r).getD c 0) (sourceByte window c j)) 0 := by
    apply List.foldl_ext
    intro acc c _
    rw [gfMulAdd, gfMul_scalar, UInt8.xor_comm]
  have hbyte : (repairPayload ⟨.scalar, B⟩ (cauchyRow k r) window k len).getD j.val 0 =
      combinedByte .scalar (cauchyRow k r) window k j := by
    rw [List.getD_eq_getElem _ _ (by simpa [repairPayload] using hj)]
    simp [repairPayload]
  change GF256.mk ((repairPayload ⟨.scalar, B⟩ (cauchyRow k r) window k len).getD j.val 0) = _
  rw [Finset.sum_apply, hbyte, hcomm, hsum]
  refine Finset.sum_congr rfl fun c _ => ?_
  rw [GF256.mk_gfMulTable, Pi.smul_apply, smul_eq_mul, coeffRows, hp, Option.map_some,
    Option.getD_some, hdrawn.coeffSymbol_repair h.window_ok h.pos]
  rfl

private theorem silent_iff (h : FullDraw B k n window draws ps) :
    (∀ p ∈ (h.systematicRows len).repairs, ∑ c ∈ (h.systematicRows len).missingᶜ,
        (systemOf k len (ps.map (packetRow k))).coeff p c • sourceVec len window c = 0) ↔
      SilentSources k len window draws := by
  have hsum : ∀ (t : Fin k) (r : ℕ) (p : Packet), ps[t.val]? = some p →
      Drawn ⟨.scalar, B⟩ k n window (.repair r) p → ∀ j : Fin len,
      (∑ c ∈ (h.systematicRows len).missingᶜ,
        (systemOf k len (ps.map (packetRow k))).coeff t c • sourceVec len window c) j =
      GF256.mk ((List.range k).foldl (fun acc i => acc ^^^
        if .source i ∈ draws then gfMulTable ((cauchyRow k r).getD i 0) (sourceByte window i j)
        else 0) 0) := by
    intro t r p hp hdrawn j
    rw [GF256.mk_foldl_xor (fun i => if .source i ∈ draws then
      gfMulTable ((cauchyRow k r).getD i 0) (sourceByte window i j) else 0), Finset.sum_apply,
      ← Finset.sum_subset (Finset.subset_univ (h.systematicRows len).missingᶜ)]
    · refine Finset.sum_congr rfl fun c hc => ?_
      rw [Finset.mem_compl, h.mem_missing_iff, not_not] at hc
      rw [if_pos hc, GF256.mk_gfMulTable, Pi.smul_apply, smul_eq_mul, systemOf_coeff, coeffRows,
        hp, Option.map_some, Option.getD_some, hdrawn.coeffSymbol_repair h.window_ok h.pos]
      rfl
    · intro c _ hc
      rw [Finset.mem_compl, not_not, h.mem_missing_iff] at hc
      rw [if_neg hc, GF256.mk_zero]
  constructor
  · intro hall r hr j hj
    obtain ⟨i, hi, hget⟩ := List.getElem_of_mem hr
    have hik : i < k := h.length_eq ▸ hi
    have hd : draws[i]? = some (.repair r) := by rw [List.getElem?_eq_getElem hi, hget]
    obtain ⟨d, p, hd', hp, hdrawn⟩ := h.at_position ⟨i, hik⟩
    obtain rfl : d = .repair r := Option.some.inj (hd'.symm.trans hd)
    have hzero := hall ⟨i, hik⟩ ((h.systematicRows len).mem_repairs.mpr
      (kind_of_repair (t := ⟨i, hik⟩) hd))
    have hj' := hsum ⟨i, hik⟩ r p hp hdrawn ⟨j, hj⟩
    rw [hzero] at hj'
    exact GF256.mk_eq_zero.mp hj'.symm
  · intro hall t ht
    obtain ⟨r, p, hd, hp, hdrawn⟩ := h.kind_repair ((h.systematicRows len).mem_repairs.mp ht)
    funext j
    rw [hsum t r p hp hdrawn j, hall r (List.mem_of_getElem? hd) j j.isLt]
    rfl

end FullDraw

/-- When a full draw gives the window back.  Every source packet has to come before more repair
packets than there are missing ids below it, and the received sources must not contribute to the
received repair packets. -/
theorem decodes_window_iff (h : FullDraw B k n window draws ps)
    (hsrc : ∀ p ∈ window, SourceOk B len p) :
    (∃ rs d, (Decoder.new k).feed ⟨.scalar, B⟩ ps = .ok (rs, d) ∧
        RecoversAll k len window d.getDecodedPackets.1) ↔
      OrderedDraws draws ∧ SilentSources k len window draws := by
  have hlen : len ≤ B := by
    have hpos : 0 < window.length := h.window_ok.length_eq.symm ▸ h.pos
    exact (hsrc window[0] (List.getElem_mem hpos)).len_le
  obtain ⟨g, t, hg, hreach, hrun⟩ := h.feed hlen
  have hrecovers := (h.systematicRows len).recovers_iff hreach
    (fun c => sourceVec len window c) fun p hp => h.repair_payload_eq hsrc
      ((h.systematicRows len).mem_repairs.mp hp)
  rw [h.orderedBelow_iff, h.silent_iff] at hrecovers
  rw [← hrecovers]
  have hout := recoversAll_iff draws h.window_ok hsrc hg.rowOk
  have hpayload : (∀ c < k, .source c ∉ draws →
      (g c).payload.map (blockVec len) = some (sourceVec len window c)) ↔
      ∀ c ∈ (h.systematicRows len).missing, t.payload c = some (sourceVec len window c) := by
    constructor
    · intro hall c hc
      rw [← hg.payload]
      exact hall c c.isLt (h.mem_missing_iff.mp hc)
    · intro hall c hc hmissing
      have hpay := hall ⟨c, hc⟩ (h.mem_missing_iff.mpr hmissing)
      rwa [← hg.payload] at hpay
  rw [← hpayload, ← hout]
  constructor
  · rintro ⟨rs, d, hfeed, hall⟩
    rw [hrun, Except.ok.injEq, Prod.mk.injEq] at hfeed
    rw [← hfeed.2] at hall
    exact hall
  · intro hall
    exact ⟨_, _, hrun, hall⟩

theorem decodes_window_iff_two_repairs :
    ∃ rs d, (Decoder.new 2).feed ⟨.scalar, 2⟩ [sampleRepair, sampleSecondRepair] = .ok (rs, d) ∧
      RecoversAll 2 1 sampleWindow d.getDecodedPackets.1 := by
  refine (decodes_window_iff (sampleDraw (a := .repair 0) (b := .repair 1) (by decide)
    ⟨by decide, by decide +kernel⟩ ⟨by decide, by decide +kernel⟩) ?_).mpr ⟨?_, ?_⟩
  · intro p hp
    simp only [sampleWindow, List.mem_cons, List.not_mem_nil, or_false] at hp
    rcases hp with rfl | rfl <;> exact ⟨rfl, ⟨_, rfl, rfl⟩, by decide⟩
  · intro p i hp
    have hmem := List.mem_of_getElem? hp
    simp at hmem
  · intro r hr j hj
    simp

/-- A source packet followed by a repair packet: the second packet comes out with the wrong byte. -/
theorem decodes_window_fails_source_repair :
    FullDraw 2 2 4 sampleWindow [.source 0, .repair 0] [sampleSource 0 5, sampleRepair] ∧
      (∀ p ∈ sampleWindow, SourceOk 2 1 p) ∧
      ¬ ∃ rs d, (Decoder.new 2).feed ⟨.scalar, 2⟩ [sampleSource 0 5, sampleRepair] = .ok (rs, d) ∧
        RecoversAll 2 1 sampleWindow d.getDecodedPackets.1 := by
  refine ⟨sampleDraw (by decide) rfl ⟨by decide, by decide +kernel⟩, ?_, ?_⟩
  · intro p hp
    simp only [sampleWindow, List.mem_cons, List.not_mem_nil, or_false] at hp
    rcases hp with rfl | rfl <;> exact ⟨rfl, ⟨_, rfl, rfl⟩, by decide⟩
  · rintro ⟨rs, d, hrun, -, hall⟩
    obtain ⟨x, hx, hbyte⟩ := exists_ok_of_any
      (x := (Decoder.new 2).feed ⟨.scalar, 2⟩ [sampleSource 0 5, sampleRepair])
      (p := fun x => x.2.getDecodedPackets.1[1]?.map (·.front 1) != some (some [9]))
      (by decide +kernel)
    rw [hrun, Except.ok.injEq] at hx
    subst hx
    obtain ⟨p, q, hp, hq, -, hfront⟩ := hall 1 (by decide)
    obtain rfl : q = sampleSource 1 9 := (Option.some.inj hq).symm
    rw [hp, Option.map_some, hfront] at hbyte
    exact absurd hbyte (by decide)

end QuicFuscate.Fec
