import QuicFuscate.Fec.Proofs.Adaptive
import QuicFuscate.Fec.Proofs.Decoder
import QuicFuscate.Fec.Proofs.Wiedemann

/-!
# Delivery without loss

A receiver that gets every source packet in order fills the slots of its decoder one by one, and
with the last slot it solves the identity.  The packets come out at that call.  The decoder is not
replaced afterwards, so later windows are ignored; the decoder of the extreme mode drops source
packets, and one with an empty window is full from the start.
-/

namespace QuicFuscate.Fec

open Framework CsrMatrix

/-! ## The identity system -/

/-- The row of the source packet for slot `t`. -/
def unitRow (k t : ℕ) : SparseRow := ⟨nonzeroEntries ((List.replicate k 0).set t 1), none⟩

variable {F : Gf16Arith} {env : Platform} {k : ℕ}

private theorem coeff_unitRow (t : ℕ) {c : ℕ} (hc : c < k) :
    (unitRow k t).coeff c = if t = c then 1 else 0 := by
  rw [unitRow, SparseRow.coeff_nonzeroEntries, List.getD_eq_getElem?_getD, List.getElem?_set]
  by_cases htc : t = c
  · simp [htc, hc]
  · simp [htc, hc]

structure IsUnitRows (k B : ℕ) (f : ℕ → SparseRow) : Prop where
  rowOk : ∀ t < k, RowOk k B (f t)
  coeff : ∀ t < k, ∀ c < k, (f t).coeff c = if t = c then 1 else 0

private theorem isUnitRows_unitRow (k B : ℕ) : IsUnitRows k B (unitRow k) where
  rowOk _ _ := ⟨SparseRow.wellFormed_nonzeroEntries (by simp) _, by simp [unitRow]⟩
  coeff t _ _ hc := coeff_unitRow t hc

private theorem gfMul_one_one (policy : SimdPolicy) : gfMul policy 1 1 = 1 := by
  cases policy <;> decide +kernel

theorem IsUnitRows.pivotRows {B i : ℕ} {f : ℕ → SparseRow} (h : IsUnitRows k B f) (policy : SimdPolicy) (hi : i < k) :
    IsUnitRows k B (pivotRows policy k f i i 1) where
  rowOk := RowOk.pivotRows h.rowOk hi hi policy 1
  coeff := by
    intro t ht c hc
    unfold Fec.pivotRows
    split
    · rename_i hti
      rw [SparseRow.coeff_scale, h.coeff i hi c hc, hti]
      split
      · exact gfMul_one_one policy
      · exact gfMul_zero policy 1
    · rename_i hti
      have hzero : (f t).coeff i = 0 := by rw [h.coeff t ht i hi, if_neg hti]
      rw [Equiv.swap_self, Equiv.refl_apply, clearedRow, if_neg (by simpa using hzero), h.coeff t ht c hc]

private theorem eliminateColumns_unit {i n : ℕ} {f : ℕ → SparseRow} (hcount : i + n = k) (hk : 1 ≤ k)
    (h : IsUnitRows k env.blockSize f) :
    ∃ g, eliminateColumns env k n i i (ofFn k f) = .ok (k, ofFn k g) ∧ IsUnitRows k env.blockSize g := by
  induction n generalizing i f with
  | zero =>
      obtain rfl : i = k := by omega
      exact ⟨f, rfl, h⟩
  | succ n ih =>
      have hi : i < k := by omega
      have hpivot : (f i).coeff i = 1 := by rw [h.coeff i hi i hi, if_pos rfl]
      rcases eliminateColumn_ofFn env hi h.rowOk with ⟨p, inv, hip, hp, -, hfirst, hinv, hstep⟩ | ⟨-, hnone⟩
      · -- Row `i` itself is the first usable one, and its entry is one.
        have hpi : p = i := by
          by_contra hne
          have hzero := hfirst i le_rfl (by omega)
          rw [hpivot] at hzero
          exact absurd hzero (by decide)
        subst hpi
        rw [hpivot, gfInv_one, Except.ok.injEq] at hinv
        subst hinv
        have h' := h.pivotRows env.policy hi
        rw [eliminateColumns, hstep, ok_bind]
        by_cases hdone : p + 1 = k
        · refine ⟨_, ?_, h'⟩
          simp only [hdone, if_true, pure_eq_ok]
        · simp only [if_neg hdone]
          exact ih (by omega) h'
      · have hzero := hnone i le_rfl hi
        rw [hpivot] at hzero
        exact absurd hzero (by decide)

/-! ## A full window of source packets -/

def identityFn (r c : ℕ) : UInt8 := if r = c then 1 else 0

private theorem krylovVec_congr (policy : SimdPolicy) {a b : ℕ → ℕ → UInt8} (h : ∀ r < k, ∀ c < k, a r c = b r c)
    (w : ℕ → UInt8) (t : ℕ) : ∀ r < k, krylovVec policy k a w t r = krylovVec policy k b w t r := by
  induction t with
  | zero => exact fun _ _ => rfl
  | succ t ih =>
      intro r hr
      apply xorSum_congr
      intro c hc
      rw [h r hr c hc, ih c hc]

private theorem krylovUsable_congr (policy : SimdPolicy) {a b : ℕ → ℕ → UInt8} (h : ∀ r < k, ∀ c < k, a r c = b r c) :
    KrylovUsable policy k a ↔ KrylovUsable policy k b := by
  have hterm : ∀ t, krylovTerm policy k a startVec t = krylovTerm policy k b startVec t := by
    intro t
    apply xorSum_congr
    intro i hi
    rw [krylovVec_congr policy h startVec t i hi]
  unfold KrylovUsable
  simp only [hterm]

/-- Whether the solver that the decoder chooses for its window solves the identity. -/
def SolvesUnit (policy : SimdPolicy) (k : ℕ) : Prop := k ≤ 256 ∨ KrylovUsable policy k identityFn

/-- The decoder that has collected the source packets `p 0, …, p (j - 1)`. -/
def holding (k : ℕ) (p : ℕ → Packet) (j : ℕ) : Decoder :=
  collecting k ((List.range k).map fun i => if i < j then some (p i) else none) ((List.range j).map (unitRow k))

section Window

variable {p : ℕ → Packet}

private theorem holding_systematicPackets_full (k : ℕ) (p : ℕ → Packet) :
    (holding k p k).systematicPackets = (List.range k).map fun i => some (p i) :=
  List.map_congr_left fun _ hi => if_pos (List.mem_range.mp hi)

private theorem holding_decodingMatrix_full (k : ℕ) (p : ℕ → Packet) :
    (holding k p k).decodingMatrix = ofFn k (unitRow k) := rfl

private theorem holding_closed (k : ℕ) (p : ℕ → Packet) :
    (holding k p k).decodingMatrix.numRows ≥ (holding k p k).k := by
  rw [holding_decodingMatrix_full, ofFn_numRows]
  exact le_rfl

private theorem tryDecode_holding (env : Platform) (k : ℕ) (p : ℕ → Packet) :
    (holding k p k).tryDecode env = if k ≤ 256 then (holding k p k).gaussianElimination env
      else (holding k p k).wiedemannAlgorithm env := by
  rw [Decoder.tryDecode, if_neg (by simp [holding, collecting]), if_neg (holding_closed k p).not_gt]
  by_cases hk : k ≤ 256
  · have hstrategy : (holding k p k).strategy = .gaussianElimination := if_neg (by omega)
    rw [hstrategy, if_pos hk]
  · have hstrategy : (holding k p k).strategy = .wiedemann := if_pos (by omega)
    rw [hstrategy, if_neg hk]

private theorem tryDecode_holding_true (hk : 1 ≤ k) (hsolve : SolvesUnit env.policy k) :
    ∃ d, (holding k p k).tryDecode env = .ok (true, d) ∧ d.isDecoded = true ∧
      d.systematicPackets = (List.range k).map fun i => some (p i) := by
  rw [tryDecode_holding]
  by_cases hsmall : k ≤ 256
  · obtain ⟨g, hrun, hg⟩ := eliminateColumns_unit (Nat.zero_add k) hk (isUnitRows_unitRow k env.blockSize)
    have hslots : filledFrom k ((List.range k).map fun i => some (p i)) g =
        (List.range k).map fun i => some (p i) := by
      refine List.ext_getElem (by simp [filledFrom]) fun i h1 h2 => ?_
      simp [filledFrom]
    have hrec : Decoder.reconstruct env (ofFn k g) k ((List.range k).map fun i => some (p i)) = _ :=
      reconstruct_ofFn env (by simp) hg.rowOk
    rw [hslots, ← holding_systematicPackets_full] at hrec
    rw [if_pos hsmall, Decoder.gaussianElimination, holding_decodingMatrix_full, show (holding k p k).k = k from rfl,
      hrun, ok_bind]
    simp only [lt_irrefl, if_false, hrec, ok_bind, pure_eq_ok]
    exact ⟨_, rfl, rfl, holding_systematicPackets_full k p⟩
  · have husable : KrylovUsable env.policy k fun r => (unitRow k r).coeff :=
      (krylovUsable_congr env.policy fun r _ c hc => coeff_unitRow r hc).mpr (hsolve.resolve_left hsmall)
    obtain ⟨poly, c0Inv, -, -, -, hrun⟩ := wiedemannSolve_usable env hk
      (fun t ht => ((isUnitRows_unitRow k env.blockSize).rowOk t ht).wellFormed) husable
    have hwidth : maxLen ((List.range k).map fun t => (unitRow k t).payload) = 0 := by
      simp [maxLen, unitRow]
    rw [hwidth] at hrun
    rw [if_neg hsmall, wiedemannAlgorithm_some (d := holding k p k) hrun
      (by simp [holding_systematicPackets_full, tabulate]) (by simp [tabulate])]
    refine ⟨_, rfl, rfl, ?_⟩
    dsimp only
    rw [holding_systematicPackets_full]
    exact List.ext_getElem (by simp) fun i h1 h2 => by simp

/-- A solver that does not succeed leaves the decoder full and undecoded, if it returns. -/
private theorem tryDecode_holding_false (hk : 1 ≤ k) (hsolve : ¬ SolvesUnit env.policy k) {b : Bool} {d : Decoder}
    (hrun : (holding k p k).tryDecode env = .ok (b, d)) : b = false ∧ d = holding k p k := by
  obtain ⟨hsmall, hunusable⟩ := not_or.mp hsolve
  have hunusable' : ¬ KrylovUsable env.policy k fun r => (unitRow k r).coeff := fun h =>
    hunusable ((krylovUsable_congr env.policy fun r _ c hc => coeff_unitRow r hc).mp h)
  rw [tryDecode_holding, if_neg hsmall, Decoder.wiedemannAlgorithm, bind_eq_ok] at hrun
  obtain ⟨r, hr, hrun⟩ := hrun
  have hnone := wiedemannSolve_unusable hk
    (fun t ht => ((isUnitRows_unitRow k env.blockSize).rowOk t ht).wellFormed) hunusable' hr
  subst hnone
  simp only [pure_eq_ok, Except.ok.injEq, Prod.mk.injEq] at hrun
  exact ⟨hrun.1.symm, hrun.2.symm⟩

end Window

/-! ## Receiving -/

def receiveAll (F : Gf16Arith) (env : Platform) :
    DecoderVariant → List Packet → Checked (List (Except String (List Packet)) × DecoderVariant) :=
  runAll fun v pkt => receiveInto F env v pkt []

def DecoderVariant.Closed : DecoderVariant → Prop
  | .g8 d => d.isDecoded ∨ d.decodingMatrix.numRows ≥ d.k
  | .g16 d => d.isDecoded ∨ d.matrix.length ≥ d.k

theorem DecoderVariant.Closed.addPacket {v : DecoderVariant} (h : v.Closed) (pkt : Packet) :
    v.addPacket F env pkt = .ok (.ok v.isDecoded, v) := by
  cases v with
  | g8 d =>
      have hfull : d.isDecoded ∨ d.decodingMatrix.numRows ≥ d.k := h
      rw [DecoderVariant.addPacket, Decoder.addPacket, if_pos hfull]
      rfl
  | g16 d =>
      have hfull : d.isDecoded ∨ d.matrix.length ≥ d.k := h
      rw [DecoderVariant.addPacket, Decoder16.addPacket, if_pos hfull]
      rfl

theorem DecoderVariant.Closed.receiveAll (F : Gf16Arith) (env : Platform) {v : DecoderVariant} (h : v.Closed)
    (pkts : List Packet) :
    receiveAll F env v pkts = .ok (List.replicate pkts.length (.ok []), v) := by
  induction pkts with
  | nil => rfl
  | cons pkt pkts ih =>
      refine runAll_cons ?_ ih
      rw [receiveInto, h.addPacket, ok_bind]
      cases v.isDecoded <;> rfl

theorem AdaptiveFec.onReceive_steady {fec : AdaptiveFec} (h : fec.isFading = false) (pkt : Packet) :
    fec.onReceive F env pkt =
      receiveInto F env fec.decoder pkt [] >>= fun r => .ok (r.1, { fec with decoder := r.2 }) := by
  rw [AdaptiveFec.onReceive, AdaptiveFec.cloneForTransition, h, if_neg Bool.false_ne_true, pure_eq_ok, ok_bind]
  cases receiveInto F env fec.decoder pkt [] with
  | error e => rfl
  | ok r =>
      obtain ⟨result, decoder⟩ := r
      cases result with
      | error e => rfl
      | ok recovered =>
          simp only [ok_bind, AdaptiveFec.receiveTransition]
          cases fec.transitionDecoder <;> rfl

theorem AdaptiveFec.runAll_onReceive (F : Gf16Arith) (env : Platform) {fec : AdaptiveFec}
    (h : fec.isFading = false) (pkts : List Packet) :
    runAll (onReceive F env) fec pkts =
      receiveAll F env fec.decoder pkts >>= fun r => .ok (r.1, { fec with decoder := r.2 }) := by
  induction pkts generalizing fec with
  | nil => rfl
  | cons pkt pkts ih =>
      rw [receiveAll, runAll, runAll, onReceive_steady h]
      cases receiveInto F env fec.decoder pkt [] with
      | error e => rfl
      | ok r =>
          have hrest : runAll (onReceive F env) { fec with decoder := r.2 } pkts = _ := ih h
          simp only [ok_bind, hrest, receiveAll, bind_assoc, pure_eq_ok]

section Window

variable {p : ℕ → Packet}

private theorem addPacket_holding (env : Platform) {j : ℕ} (hj : j < k)
    (hp : (p j).isSystematic = true ∧ (p j).id = j) :
    (holding k p j).addPacket env (p j) =
      (holding k p (j + 1)).tryDecode env >>= fun r => .ok (.ok r.1, r.2) := by
  have hmod : (p j).id % k = j := by rw [hp.2, Nat.mod_eq_of_lt hj]
  have hempty : ¬ Repeated k ((List.range k).map fun i => if i < j then some (p i) else none) (p j) := by
    rintro ⟨-, h⟩
    rw [hmod, List.getD_eq_getElem _ _ (by simpa using hj)] at h
    simp at h
  have hslots : slotsAfter k ((List.range k).map fun i => if i < j then some (p i) else none) (p j) =
      (List.range k).map fun i => if i < j + 1 then some (p i) else none := by
    rw [slotsAfter, if_pos hp.1, hmod, range_map_set]
    apply List.map_congr_left
    intro i _
    rw [Function.update_apply]
    split
    · rename_i hij
      simp [hij]
    · rename_i hij
      have hiff : i < j + 1 ↔ i < j := by omega
      simp [hiff]
  have hrow : packetRow k (p j) = unitRow k j := by rw [packetRow, if_pos hp.1, hmod, unitRow]
  rw [holding, addPacket_collecting env (by simpa using hj) (by simp) (fun h => by simp [hp.1] at h),
    if_neg hempty, hslots, hrow, holding, List.range_succ, List.map_append, List.map_singleton]

private theorem receiveAll_holding (F : Gf16Arith) (env : Platform) {m : ℕ} (hm : m < k)
    (hp : ∀ i < m, (p i).isSystematic = true ∧ (p i).id = i) :
    receiveAll F env (.g8 (Decoder.new k)) ((List.range m).map p) =
      .ok (List.replicate m (.ok []), .g8 (holding k p m)) := by
  induction m with
  | zero =>
      have hnew : Decoder.new k = holding k p 0 := by
        simp [new_eq_collecting, holding, List.map_const']
      rw [hnew]
      rfl
  | succ m ih =>
      have htry : (holding k p (m + 1)).tryDecode env = .ok (false, holding k p (m + 1)) :=
        tryDecode_collecting (by simpa using hm)
      have hadd := addPacket_holding env (by omega : m < k) (hp m (by omega))
      rw [htry, ok_bind] at hadd
      have hlast : receiveAll F env (.g8 (holding k p m)) [p m] = .ok ([.ok []], .g8 (holding k p (m + 1))) := by
        refine runAll_cons ?_ rfl
        rw [receiveInto, DecoderVariant.addPacket, hadd, ok_bind]
        rfl
      rw [List.range_succ, List.map_append, List.replicate_succ']
      exact runAll_append (ih (by omega) fun i hi => hp i (by omega)) hlast

/-- With the last slot the decoder solves the identity, and either the whole window comes out or
nothing does. -/
private theorem receiveAll_window (F : Gf16Arith) (env : Platform) (hk : 1 ≤ k)
    (hp : ∀ i < k, (p i).isSystematic = true ∧ (p i).id = i) :
    receiveAll F env (.g8 (Decoder.new k)) ((List.range k).map p) =
      (holding k p k).tryDecode env >>= fun r => .ok (List.replicate (k - 1) (.ok []) ++
          [.ok (if r.1 then r.2.systematicPackets.filterMap id else [])],
        .g8 (if r.1 then r.2.getDecodedPackets.2 else r.2)) := by
  obtain ⟨j, rfl⟩ : ∃ j, k = j + 1 := ⟨k - 1, by omega⟩
  have hbefore := receiveAll_holding F env (by omega : j < j + 1) fun i hi => hp i (by omega)
  have hadd := addPacket_holding env (by omega : j < j + 1) (hp j (by omega))
  rw [receiveAll] at hbefore ⊢
  rw [List.range_succ, List.map_append, List.map_singleton, runAll_append_eq, hbefore, ok_bind]
  simp only [runAll, receiveInto, DecoderVariant.addPacket, hadd, bind_assoc, ok_bind, pure_eq_ok]
  cases (holding (j + 1) p (j + 1)).tryDecode env with
  | error e => rfl
  | ok r =>
      obtain ⟨b, d⟩ := r
      cases b <;> rfl

end Window

/-- Source packets never come out of the decoder of the extreme mode. -/
private theorem receiveAll_g16 (F : Gf16Arith) (env : Platform) {d : Decoder16} (hd : d.isDecoded = false)
    {pkts : List Packet} (hpkts : ∀ q ∈ pkts, q.isSystematic = true) :
    ∃ d', receiveAll F env (.g16 d) pkts = .ok (List.replicate pkts.length (.ok []), .g16 d') := by
  induction pkts generalizing d with
  | nil => exact ⟨d, rfl⟩
  | cons q pkts ih =>
      have hpkts' : ∀ r ∈ pkts, r.isSystematic = true := fun r hr => hpkts r (by simp [hr])
      by_cases hfull : d.matrix.length ≥ d.k
      · exact ⟨d, DecoderVariant.Closed.receiveAll F env (v := .g16 d) (.inr hfull) _⟩
      · have hrow : writeAt (List.replicate d.k (0 : UInt16)) (q.id % d.k) 1 =
            .ok ((List.replicate d.k 0).set (q.id % d.k) 1) :=
          writeAt_of_lt (by simpa using Nat.mod_lt _ (by omega)) 1
        have hadd : d.addPacket F q = .ok (.ok false, { d with
            matrix := d.matrix ++ [(List.replicate d.k 0).set (q.id % d.k) 1]
            payloads := d.payloads ++ [none] }) := by
          rw [Decoder16.addPacket, if_neg (by simp [hd, hfull]), if_pos (hpkts q (by simp)), hrow]
          rfl
        obtain ⟨d', hrest⟩ := ih (d := { d with
            matrix := d.matrix ++ [(List.replicate d.k 0).set (q.id % d.k) 1]
            payloads := d.payloads ++ [none] }) hd hpkts'
        refine ⟨d', runAll_cons ?_ hrest⟩
        rw [receiveInto, DecoderVariant.addPacket, hadd, ok_bind]
        cases (DecoderVariant.g16 d).isDecoded <;> rfl

/-! ## Whole runs -/

def Packet.payload (q : Packet) : List UInt8 := (q.data.getD []).take q.len

def returned (outs : List (Except String (List Packet))) : List Packet :=
  (outs.map fun out => out.toOption.getD []).flatten

@[simp] theorem returned_append (outs outs' : List (Except String (List Packet))) :
    returned (outs ++ outs') = returned outs ++ returned outs' := by
  simp [returned]

@[simp] theorem returned_replicate (n : ℕ) : returned (List.replicate n (.ok [])) = [] := by
  simp [returned, Except.toOption]

/-- How many of `m` packets are due with windows of `k` packets: those of the complete windows, or
all of them when packets pass through. -/
def due (k m : ℕ) : ℕ := if k = 0 then m else m / k * k

/-- A receiver that starts in `mode` returns each packet that is due exactly once, unchanged. -/
def Lossless (F : Gf16Arith) (env : Platform) (mode : FecMode) (windowSizes : FecMode → Option ℕ) (now : ℕ)
    (pkts : List Packet) : Prop :=
  ∃ outs fec, runAll (AdaptiveFec.onReceive F env) (AdaptiveFec.new mode windowSizes now) pkts = .ok (outs, fec) ∧
    ∀ q ∈ pkts.take (due (ModeManager.windowFor windowSizes mode) pkts.length),
      ((returned outs).filter fun r => r.id = q.id).map Packet.payload = [q.payload]

private theorem lossless_iff_receiveAll {mode : FecMode} {windowSizes : FecMode → Option ℕ} {now : ℕ}
    {pkts : List Packet} :
    Lossless F env mode windowSizes now pkts ↔
      ∃ outs v, receiveAll F env (DecoderVariant.new mode (ModeManager.windowFor windowSizes mode)) pkts =
          .ok (outs, v) ∧
        ∀ q ∈ pkts.take (due (ModeManager.windowFor windowSizes mode) pkts.length),
          ((returned outs).filter fun r => r.id = q.id).map Packet.payload = [q.payload] := by
  have hrun := AdaptiveFec.runAll_onReceive F env
    (show (AdaptiveFec.new mode windowSizes now).isFading = false from rfl) pkts
  have hdec : (AdaptiveFec.new mode windowSizes now).decoder =
    DecoderVariant.new mode (ModeManager.windowFor windowSizes mode) := rfl
  rw [hdec] at hrun
  unfold Lossless
  constructor
  · rintro ⟨outs, fec, h, hall⟩
    rw [hrun, bind_eq_ok] at h
    obtain ⟨⟨outs', v⟩, hv, h⟩ := h
    obtain ⟨rfl, -⟩ := Prod.mk.inj (Except.ok.inj h)
    exact ⟨outs', v, hv, hall⟩
  · rintro ⟨outs, v, hv, hall⟩
    rw [hv, ok_bind] at hrun
    exact ⟨outs, _, hrun, hall⟩

/-- A run that returns nothing is lossless only when nothing is due. -/
private theorem forall_returned_iff_of_nil {outs : List (Except String (List Packet))} (houts : returned outs = [])
    (pkts : List Packet) (n : ℕ) :
    (∀ q ∈ pkts.take n, ((returned outs).filter fun r => r.id = q.id).map Packet.payload = [q.payload]) ↔
      pkts.take n = [] := by
  rw [houts]
  constructor
  · intro h
    rw [List.eq_nil_iff_forall_not_mem]
    intro q hq
    simpa using h q hq
  · intro h q hq
    rw [h] at hq
    cases hq

private theorem due_eq_zero_iff (k m : ℕ) : due k m = 0 ↔ m = 0 ∨ m < k := by
  unfold due
  split
  · omega
  · rename_i hk
    rw [Nat.mul_eq_zero, Nat.div_eq_zero_iff]
    omega

section Runs

variable {p : ℕ → Packet} {m : ℕ} {mode : FecMode} {windowSizes : FecMode → Option ℕ} {now : ℕ}

private theorem take_due_eq_nil_iff (k : ℕ) (p : ℕ → Packet) (m : ℕ) :
    ((List.range m).map p).take (due k ((List.range m).map p).length) = [] ↔ m = 0 ∨ m < k := by
  rw [List.length_map, List.length_range, List.take_eq_nil_iff, due_eq_zero_iff]
  simp
  omega

private theorem lossless_iff_of_silent {outs : List (Except String (List Packet))} {v : DecoderVariant}
    (hrun : receiveAll F env (DecoderVariant.new mode (ModeManager.windowFor windowSizes mode))
      ((List.range m).map p) = .ok (outs, v)) (houts : returned outs = []) :
    Lossless F env mode windowSizes now ((List.range m).map p) ↔
      m = 0 ∨ m < ModeManager.windowFor windowSizes mode := by
  rw [lossless_iff_receiveAll, ← take_due_eq_nil_iff _ p m, ← forall_returned_iff_of_nil houts]
  constructor
  · rintro ⟨outs', v', hrun', hall⟩
    rw [hrun, Except.ok.injEq, Prod.mk.injEq] at hrun'
    exact hrun'.1 ▸ hall
  · intro hall
    exact ⟨outs, v, hrun, hall⟩

private theorem filter_window (hp : ∀ i < k, (p i).id = i) (j : ℕ) :
    (((List.range k).map p).filter fun r => r.id = j) = if j < k then [p j] else [] := by
  induction k with
  | zero => rfl
  | succ k ih =>
      rw [List.range_succ, List.map_append, List.map_singleton, List.filter_append,
        ih fun i hi => hp i (by omega)]
      have hid := hp k (by omega)
      rcases lt_trichotomy j k with hj | hj | hj
      · have hne : k ≠ j := by omega
        simp [hid, hne, hj, show j < k + 1 by omega]
      · simp [hj, hid]
      · have hne : k ≠ j := by omega
        simp [hid, hne, show ¬ j < k by omega, show ¬ j < k + 1 by omega]

private theorem forall_returned_window_iff (hk : 1 ≤ k) (hkm : k ≤ m) (hp : ∀ i < m, (p i).id = i)
    {outs : List (Except String (List Packet))} (houts : returned outs = (List.range k).map p) :
    (∀ q ∈ ((List.range m).map p).take (due k m),
      ((returned outs).filter fun r => r.id = q.id).map Packet.payload = [q.payload]) ↔ m < 2 * k := by
  have hdue : due k m = m / k * k := if_neg (by omega)
  rw [houts, hdue]
  constructor
  · intro h
    by_contra hge
    have htwo : 2 ≤ m / k := (Nat.le_div_iff_mul_le (by omega)).mpr (by omega)
    have hlong : 2 * k ≤ m / k * k := Nat.mul_le_mul_right k htwo
    have hle : m / k * k ≤ m := Nat.div_mul_le_self m k
    -- The first packet of the second window is due, but not among those returned.
    have hmem : p k ∈ ((List.range m).map p).take (m / k * k) := by
      rw [← List.map_take, List.take_range, Nat.min_eq_left hle]
      exact List.mem_map.mpr ⟨k, List.mem_range.mpr (by omega), rfl⟩
    have hk' := h (p k) hmem
    rw [hp k (by omega), filter_window (fun i hi => hp i (by omega)), if_neg (lt_irrefl k)] at hk'
    simp at hk'
  · intro hlt q hq
    have hone : m / k = 1 := Nat.div_eq_of_lt_le (by omega) (by omega)
    rw [hone, one_mul, ← List.map_take, List.take_range, Nat.min_eq_left hkm] at hq
    obtain ⟨i, hi, rfl⟩ := List.mem_map.mp hq
    have hi := List.mem_range.mp hi
    rw [hp i (by omega), filter_window (fun i hi => hp i (by omega)), if_pos hi]
    rfl

private theorem window_split (p : ℕ → Packet) (hkm : k ≤ m) :
    (List.range m).map p = (List.range k).map p ++ ((List.range m).map p).drop k := by
  have htake : ((List.range m).map p).take k = (List.range k).map p := by
    rw [← List.map_take, List.take_range, Nat.min_eq_left hkm]
  rw [← htake, List.take_append_drop]

private theorem receiveAll_solved (F : Gf16Arith) {env : Platform} (hk : 1 ≤ k) (hkm : k ≤ m)
    (hp : ∀ i < m, (p i).isSystematic = true ∧ (p i).id = i) (hsolve : SolvesUnit env.policy k) :
    ∃ outs v, receiveAll F env (.g8 (Decoder.new k)) ((List.range m).map p) = .ok (outs, v) ∧
      returned outs = (List.range k).map p := by
  obtain ⟨d, htry, hdec, hslots⟩ := tryDecode_holding_true (p := p) hk hsolve
  have hfirst := receiveAll_window F env hk fun i hi => hp i (by omega)
  rw [htry, ok_bind] at hfirst
  have hclosed : (DecoderVariant.g8 (if true then d.getDecodedPackets.2 else d)).Closed := .inl hdec
  have hrest := hclosed.receiveAll F env (((List.range m).map p).drop k)
  have hsplit := window_split p hkm
  have hall : (List.filterMap id ((List.range k).map fun i => some (p i))) = (List.range k).map p := by
    rw [List.filterMap_map, ← List.filterMap_eq_map]
    rfl
  rw [hsplit]
  refine ⟨_, _, runAll_append hfirst hrest, ?_⟩
  simp only [returned_append, returned_replicate, List.nil_append, List.append_nil, hslots, hall, if_true]
  simp [returned, Except.toOption]

/-- When the solver does not handle the identity, nothing comes out of a run that completes. -/
private theorem returned_of_unsolved (hk : 1 ≤ k) (hkm : k ≤ m) (hp : ∀ i < m, (p i).isSystematic = true ∧ (p i).id = i)
    (hsolve : ¬ SolvesUnit env.policy k) {outs : List (Except String (List Packet))} {v : DecoderVariant}
    (hrun : receiveAll F env (.g8 (Decoder.new k)) ((List.range m).map p) = .ok (outs, v)) : returned outs = [] := by
  have hsplit := window_split p hkm
  have hfirst := receiveAll_window F env hk fun i hi => hp i (by omega)
  rw [receiveAll] at hfirst hrun
  rw [hsplit, runAll_append_eq, hfirst, bind_assoc, bind_eq_ok] at hrun
  obtain ⟨⟨b, d⟩, htry, hrun⟩ := hrun
  obtain ⟨rfl, rfl⟩ := tryDecode_holding_false hk hsolve htry
  have hclosed : (DecoderVariant.g8 (holding k p k)).Closed := .inr (holding_closed k p)
  have hrest := hclosed.receiveAll F env (((List.range m).map p).drop k)
  rw [receiveAll] at hrest
  simp only [ok_bind, Bool.false_eq_true, if_false, hrest, pure_eq_ok, Except.ok.injEq, Prod.mk.injEq] at hrun
  rw [← hrun.1]
  simp [returned, Except.toOption]

/-- A receiver delivers a lossless stream exactly as long as no window is complete, or only one is
and the decoder is one that keeps source packets and solves the identity. -/
theorem receiving_lossless_iff (F : Gf16Arith) (env : Platform) (mode : FecMode)
    (windowSizes : FecMode → Option ℕ) (now : ℕ) {p : ℕ → Packet} {m : ℕ}
    (hp : ∀ i < m, (p i).isSystematic = true ∧ (p i).id = i) :
    Lossless F env mode windowSizes now ((List.range m).map p) ↔
      m = 0 ∨ m < ModeManager.windowFor windowSizes mode ∨
        m < 2 * ModeManager.windowFor windowSizes mode ∧ mode ≠ .extreme ∧
          SolvesUnit env.policy (ModeManager.windowFor windowSizes mode) := by
  by_cases hext : mode = .extreme
  · -- The decoder drops source packets.
    have hnew : DecoderVariant.new mode (ModeManager.windowFor windowSizes mode) =
        .g16 (Decoder16.new (ModeManager.windowFor windowSizes mode)) := if_pos hext
    have hsys : ∀ q ∈ (List.range m).map p, q.isSystematic = true := by
      intro q hq
      obtain ⟨i, hi, rfl⟩ := List.mem_map.mp hq
      exact (hp i (List.mem_range.mp hi)).1
    obtain ⟨d', hrun⟩ := receiveAll_g16 F env (d := Decoder16.new (ModeManager.windowFor windowSizes mode)) rfl hsys
    rw [lossless_iff_of_silent (hnew ▸ hrun) (returned_replicate _)]
    simp [hext]
  have hnew : DecoderVariant.new mode (ModeManager.windowFor windowSizes mode) =
      .g8 (Decoder.new (ModeManager.windowFor windowSizes mode)) := if_neg hext
  generalize hk : ModeManager.windowFor windowSizes mode = k at hnew ⊢
  rcases Nat.lt_or_ge m k with hlt | hkm
  · have hrun := receiveAll_holding F env hlt hp
    rw [← hnew, ← hk] at hrun
    rw [lossless_iff_of_silent hrun (returned_replicate _), hk]
    simp [hlt]
  rcases Nat.eq_zero_or_pos k with hzero | hpos
  · -- An empty window is full from the start.
    have hclosed : (DecoderVariant.new mode (ModeManager.windowFor windowSizes mode)).Closed := by
      rw [hk, hnew, hzero]
      exact .inr (Nat.zero_le _)
    rw [lossless_iff_of_silent (hclosed.receiveAll _ _ _) (returned_replicate _), hk]
    omega
  rw [lossless_iff_receiveAll, hk, hnew]
  by_cases hsolve : SolvesUnit env.policy k
  · obtain ⟨outs, v, hrun, houts⟩ := receiveAll_solved F hpos hkm hp hsolve
    have hiff := forall_returned_window_iff hpos hkm (fun i hi => (hp i hi).2) houts
    rw [List.length_map, List.length_range]
    constructor
    · rintro ⟨outs', v', hrun', hall⟩
      rw [hrun, Except.ok.injEq, Prod.mk.injEq] at hrun'
      exact .inr (.inr ⟨hiff.mp (hrun'.1 ▸ hall), hext, hsolve⟩)
    · intro h
      exact ⟨outs, v, hrun, hiff.mpr (by omega)⟩
  · constructor
    · rintro ⟨outs, v, hrun, hall⟩
      have houts := returned_of_unsolved hpos hkm hp hsolve hrun
      rw [forall_returned_iff_of_nil houts, take_due_eq_nil_iff] at hall
      exact .inl (hall.resolve_right (by omega))
    · rintro (h | h | ⟨-, -, h⟩)
      · omega
      · omega
      · exact absurd h hsolve

/-- A source packet with one payload byte. -/
def sourcePacket (i : ℕ) : Packet := ⟨i, some [UInt8.ofNat i, 0], 1, true, none, 0⟩

theorem receiving_lossless_iff_one_window :
    Lossless gf16Arith ⟨.scalar, 2⟩ .light ModeManager.defaultTable 0 ((List.range 20).map sourcePacket) :=
  (receiving_lossless_iff gf16Arith ⟨.scalar, 2⟩ .light ModeManager.defaultTable 0
    fun _ _ => ⟨rfl, rfl⟩).mpr (.inr (.inr ⟨by decide, by decide, .inl (by decide)⟩))

/-- The pass-through mode delivers nothing, and the light mode nothing after its first window. -/
theorem receiving_loses_packets :
    ¬ Lossless gf16Arith ⟨.scalar, 2⟩ .zero ModeManager.defaultTable 0 ((List.range 1).map sourcePacket) ∧
      ¬ Lossless gf16Arith ⟨.scalar, 2⟩ .light ModeManager.defaultTable 0 ((List.range 32).map sourcePacket) := by
  constructor
  · have hclosed : (DecoderVariant.new .zero (ModeManager.windowFor ModeManager.defaultTable .zero)).Closed :=
      .inr (Nat.zero_le _)
    rw [lossless_iff_of_silent (hclosed.receiveAll _ _ _) (returned_replicate _)]
    decide
  · obtain ⟨outs, v, hrun, houts⟩ : ∃ outs v, receiveAll gf16Arith ⟨.scalar, 2⟩ (.g8 (Decoder.new 16))
          ((List.range 32).map sourcePacket) = .ok (outs, v) ∧ returned outs = (List.range 16).map sourcePacket :=
      receiveAll_solved gf16Arith (by decide) (by decide) (fun _ _ => ⟨rfl, rfl⟩) (.inl (by decide))
    rw [lossless_iff_receiveAll]
    rintro ⟨outs', v', hrun', hall⟩
    have heq := hrun.symm.trans hrun'
    rw [Except.ok.injEq, Prod.mk.injEq] at heq
    have hlt := (forall_returned_window_iff (k := 16) (m := 32) (by decide) (by decide) (fun _ _ => rfl)
      (heq.1 ▸ houts)).mp hall
    exact absurd hlt (by decide)

end Runs

end QuicFuscate.Fec
