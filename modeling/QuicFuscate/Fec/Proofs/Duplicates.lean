import QuicFuscate.Fec.Proofs.Decoder
import QuicFuscate.Fec.Encoder

/-!
# Duplicates and useless packets

Repeated systematic packets are dropped, but a repeated or dependent repair packet takes one of the
`k` row places.  Whether a run ends decoded is settled by the first `k` packets that are not
dropped, no matter what comes after them.
-/

namespace QuicFuscate.Fec

open Framework CsrMatrix

/-- Coefficient `c` of the row that a packet stands for. -/
def coeffSymbol (k : ℕ) (p : Packet) (c : ℕ) : UInt8 :=
  if p.isSystematic then if c = p.id % k then 1 else 0
  else ((p.coefficients.getD []).take p.coeffLen).getD c 0

def coeffRows (k : ℕ) (qs : List Packet) (t c : Fin k) : GF256 :=
  ⟨(qs[t.val]?.map fun p => coeffSymbol k p c).getD 0⟩

/-- The first `k` packets have linearly independent coefficient rows. -/
def RowsIndependent (k : ℕ) (qs : List Packet) : Prop := LinearIndependent GF256 (coeffRows k qs)

variable {k : ℕ} {slots : List (Option Packet)}

private theorem coeff_packetRow (p : Packet) {c : ℕ} (hc : c < k) :
    (packetRow k p).coeff c = coeffSymbol k p c := by
  unfold packetRow coeffSymbol
  cases p.isSystematic with
  | true =>
      simp only [if_true]
      rw [SparseRow.coeff_nonzeroEntries, List.getD_eq_getElem _ _ (by simpa using hc),
        List.getElem_set]
      simp [eq_comm]
  | false =>
      simp only [Bool.false_eq_true, if_false]
      rw [SparseRow.coeff_nonzeroEntries]

theorem systemOf_coeff {w : ℕ} {qs : List Packet} :
    (systemOf k w (qs.map (packetRow k))).coeff = coeffRows k qs := by
  funext t c
  simp only [systemOf, coeffRows, List.getD_eq_getElem?_getD, List.getElem?_map]
  cases qs[t.val]? with
  | none => rfl
  | some p => simp [coeff_packetRow p c.isLt]

/-! ## No direction is lost -/

private theorem accepted_covers {ps : List Packet} {q : Packet} (hq : q ∈ ps)
    (hslots : slots.length = k) :
    q ∈ accepted k slots ps ∨
      (q.isSystematic ∧ ∃ a ∈ accepted k slots ps, a.isSystematic ∧ a.id % k = q.id % k) ∨
      (q.isSystematic ∧ (slots.getD (q.id % k) none).isSome) := by
  induction ps generalizing slots with
  | nil => simp at hq
  | cons p ps ih =>
      rw [accepted]
      by_cases hrep : Repeated k slots p
      · rw [if_pos hrep]
        rcases List.mem_cons.mp hq with rfl | hq
        · exact .inr (.inr hrep)
        · exact ih hq hslots
      · rw [if_neg hrep]
        rcases List.mem_cons.mp hq with rfl | hq
        · exact .inl (by simp)
        · rcases ih hq ((slotsAfter_length k slots p).trans hslots) with h | ⟨hs, a, ha, h⟩ | ⟨hs, h⟩
          · exact .inl (List.mem_cons_of_mem p h)
          · exact .inr (.inl ⟨hs, a, List.mem_cons_of_mem p ha, h⟩)
          · by_cases hp : p.isSystematic = true ∧ p.id % k = q.id % k
            · exact .inr (.inl ⟨hs, p, by simp, hp⟩)
            · refine .inr (.inr ⟨hs, ?_⟩)
              unfold slotsAfter at h
              split at h
              · rename_i hsys
                have hne : p.id % k ≠ q.id % k := fun heq => hp ⟨hsys, heq⟩
                rwa [List.getD_eq_getElem?_getD, List.getElem?_set_ne hne,
                  ← List.getD_eq_getElem?_getD] at h
              · exact h

private theorem coeffSymbol_congr {p q : Packet} (hp : p.isSystematic) (hq : q.isSystematic)
    (h : p.id % k = q.id % k) : coeffSymbol k p = coeffSymbol k q := by
  funext c
  simp [coeffSymbol, hp, hq, h]

private theorem length_accepted_of_independent {ps qs : List Packet} (hlen : qs.length = k)
    (hsub : ∀ q ∈ qs, q ∈ ps) (hind : RowsIndependent k qs) :
    k ≤ (accepted k (List.replicate k none) ps).length := by
  classical
  let row : Packet → Fin k → GF256 := fun p c => ⟨coeffSymbol k p c⟩
  have hrow : ∀ t : Fin k, ∃ q ∈ qs, coeffRows k qs t = row q := by
    intro t
    have ht : t.val < qs.length := by omega
    refine ⟨qs[t.val], List.getElem_mem ht, ?_⟩
    funext c
    simp [coeffRows, row, ht]
  have hcover : ∀ q ∈ qs, row q ∈ ((accepted k (List.replicate k none) ps).map row).toFinset := by
    intro q hq
    rw [List.mem_toFinset, List.mem_map]
    rcases accepted_covers (hsub q hq) (List.length_replicate (n := k) (a := none)) with
      h | ⟨hs, a, ha, hsys, hid⟩ | ⟨-, h⟩
    · exact ⟨q, h, rfl⟩
    · refine ⟨a, ha, ?_⟩
      funext c
      exact congrArg GF256.mk (congrFun (coeffSymbol_congr hsys hs hid) c)
    · simp at h
  have himage : Finset.univ.image (coeffRows k qs) ⊆
      ((accepted k (List.replicate k none) ps).map row).toFinset := by
    intro v hv
    obtain ⟨t, -, rfl⟩ := Finset.mem_image.mp hv
    obtain ⟨q, hq, heq⟩ := hrow t
    rw [heq]
    exact hcover q hq
  calc k = (Finset.univ.image (coeffRows k qs)).card := by
        rw [Finset.card_image_of_injective _ hind.injective, Finset.card_univ, Fintype.card_fin]
    _ ≤ ((accepted k (List.replicate k none) ps).map row).toFinset.card := Finset.card_le_card himage
    _ ≤ ((accepted k (List.replicate k none) ps).map row).length := List.toFinset_card_le _
    _ = (accepted k (List.replicate k none) ps).length := List.length_map _

/-- Let a run contain `k` packets with independent rows.  It ends decoded exactly when the first `k`
packets that are left after dropping repeated systematic packets have independent rows. -/
theorem feed_isDecoded_iff {B : ℕ} (hk : 1 ≤ k) (hk256 : k ≤ 256) {ps : List Packet}
    (hps : ∀ p ∈ ps, PacketOk k B p)
    (hind : ∃ qs : List Packet, qs.length = k ∧ (∀ q ∈ qs, q ∈ ps) ∧ RowsIndependent k qs) :
    ∃ rs d, (Decoder.new k).feed ⟨.scalar, B⟩ ps = .ok (rs, d) ∧
      (d.isDecoded = true ↔
        RowsIndependent k ((accepted k (List.replicate k none) ps).take k)) := by
  obtain ⟨qs, hlen, hsub, hqs⟩ := hind
  have hacc := length_accepted_of_independent hlen hsub hqs
  obtain ⟨pre, p, post, rfl, hfirst, hrun⟩ := feed_full ⟨.scalar, B⟩ hps
    (List.length_replicate (n := k) (a := none)) (show [].length < k from hk)
    (by simpa using hacc)
  let first := (accepted k (List.replicate k none) (pre ++ p :: post)).take k
  have hfirstLen : (first.map (packetRow k)).length = k := by simp [first, hacc]
  have hok : ∀ r ∈ first.map (packetRow k), RowOk k B r := by
    intro r hr
    obtain ⟨q, hq, rfl⟩ := List.mem_map.mp hr
    exact rowOk_packetRow
      (hps q ((accepted_sublist k _ _).subset (List.mem_of_mem_take hq)))
  rcases tryDecode_eliminates (fillSlots k (List.replicate k none) first) (w := 0) hk256 (Nat.zero_le B) hfirstLen
      (by rw [fillSlots_length, List.length_replicate]) hok with
    ⟨g, t, hg, hreach, htry⟩ | ⟨g, hdep, htry⟩
  · have hyes : RowsIndependent k first := by
      rw [RowsIndependent, ← systemOf_coeff (w := 0)]
      exact hreach.linearIndependent
    exact ⟨_, _, hrun htry (.inl rfl) rfl, iff_of_true rfl hyes⟩
  · have hno : ¬ RowsIndependent k first := by
      rwa [RowsIndependent, ← systemOf_coeff (w := 0)]
    refine ⟨_, _, hrun htry (.inr ?_) rfl, iff_of_false (by simp [collecting]) hno⟩
    exact (ofFn_numRows k g).ge

def sampleSource (id : ℕ) (b : UInt8) : Packet := ⟨id, some [b, 0], 1, true, none, 0⟩

theorem feed_isDecoded_iff_repeated_source :
    ∃ rs d, (Decoder.new 2).feed ⟨.scalar, 2⟩
        [sampleSource 0 5, sampleSource 0 5, sampleSource 1 9] = .ok (rs, d) ∧
      (d.isDecoded = true ↔ RowsIndependent 2 ((accepted 2 (List.replicate 2 none)
        [sampleSource 0 5, sampleSource 0 5, sampleSource 1 9]).take 2)) := by
  apply feed_isDecoded_iff (by decide) (by decide)
  · intro p hp
    simp only [List.mem_cons, List.not_mem_nil, or_false] at hp
    rcases hp with rfl | rfl | rfl <;>
      exact ⟨by simp [sampleSource], by simp [sampleSource], by simp [sampleSource]⟩
  · refine ⟨[sampleSource 0 5, sampleSource 1 9], rfl, by simp, ?_⟩
    rw [RowsIndependent, linearIndependent_fin2]
    refine ⟨fun h => ?_, fun a h => ?_⟩
    · exact absurd (congrFun h 1) (by decide +kernel)
    · have h0 := congrFun h 0
      have hzero : coeffRows 2 [sampleSource 0 5, sampleSource 1 9] 1 0 = 0 := by
        decide +kernel
      rw [Pi.smul_apply, hzero, smul_zero] at h0
      exact absurd h0 (by decide +kernel)

def sampleRepair : Packet := ⟨2, some [139, 0], 1, false, some [142, 244], 2⟩

/-- A repair packet received twice before the systematic packet of slot zero: the rows of the two
kinds are independent, and the run ends undecoded. -/
theorem feed_repeated_repair_undecoded :
    Encoder.generateRepairPacket ⟨.scalar, 2⟩ ⟨2, 3, [sampleSource 0 5, sampleSource 1 9]⟩ 0 =
        .ok (some sampleRepair) ∧
      RowsIndependent 2 [sampleSource 0 5, sampleRepair] ∧
      ∃ rs d, (Decoder.new 2).feed ⟨.scalar, 2⟩ [sampleRepair, sampleRepair, sampleSource 0 5] =
        .ok (rs, d) ∧ d.isDecoded = false := by
  refine ⟨by decide +kernel, ?_, ?_⟩
  · rw [RowsIndependent, linearIndependent_fin2]
    refine ⟨fun h => ?_, fun a h => ?_⟩
    · exact absurd (congrFun h 1) (by decide +kernel)
    -- The second column forces the factor to be zero, the first one forces it not to be.
    · have h1 : a * coeffRows 2 [sampleSource 0 5, sampleRepair] 1 1 = 0 :=
        (congrFun h 1).trans (by decide +kernel)
      have ha : a = 0 := (mul_eq_zero.mp h1).resolve_right (by decide +kernel)
      have h0 := congrFun h 0
      rw [ha, zero_smul] at h0
      exact absurd h0 (by decide +kernel)
  · obtain ⟨⟨rs, d⟩, hfeed, hdec⟩ := exists_ok_of_any
      (x := (Decoder.new 2).feed ⟨.scalar, 2⟩ [sampleRepair, sampleRepair, sampleSource 0 5])
      (p := fun x => !x.2.isDecoded) (by decide +kernel)
    exact ⟨rs, d, hfeed, by simpa using hdec⟩

end QuicFuscate.Fec
