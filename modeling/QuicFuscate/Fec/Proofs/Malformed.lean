import QuicFuscate.Fec.Proofs.Adaptive
import QuicFuscate.Fec.Proofs.Codec
import QuicFuscate.Fec.Proofs.Decoder
import QuicFuscate.Fec.Proofs.Wiedemann

/-!
# Repair packets of the wrong width

The coefficient length of a received repair packet is whatever its frame says, and the decoder does
not compare it with its window.  It refuses no such packet, and the row is in the matrix when the
system is solved.  As long as every row has the right width, no call aborts in any state.
-/

namespace QuicFuscate.Fec

open Framework CsrMatrix

variable {env : Platform} {k : ℕ}

/-- A packet that `from_block` built from a pool block. -/
def Received (env : Platform) (p : Packet) : Prop :=
  ∃ id block len, block.length = env.blockSize ∧ Packet.fromBlock env id block len = .ok (.ok p)

/-- A repair packet without exactly `k` coefficients. -/
def Packet.Malformed (k : ℕ) (p : Packet) : Prop := p.isSystematic = false ∧ p.coeffLen ≠ k

theorem Received.coefficients_some {p : Packet} (h : Received env p) (hsys : p.isSystematic = false) :
    ∃ c, p.coefficients = some c ∧ p.coeffLen ≤ c.length := by
  obtain ⟨id, block, len, -, hp⟩ := h
  obtain ⟨hbuilt, -⟩ := Packet.fromBlock_sound hp
  cases hc : p.coefficients with
  | none =>
      rw [hbuilt.systematic_iff.mpr hc] at hsys
      cases hsys
  | some c => exact ⟨c, rfl, (hbuilt.coeffLen_some c hc).2⟩

theorem Received.packetOk {p : Packet} (h : Received env p) (hp : ¬ p.Malformed k) :
    PacketOk k env.blockSize p where
  coeffs := h.coefficients_some
  coeffLen_eq := by
    intro hsys
    by_contra hne
    exact hp ⟨hsys, hne⟩
  data_length := by
    intro _ d hd
    obtain ⟨id, block, len, hblock, hp⟩ := h
    obtain ⟨-, -, -, data, hdata, hlen⟩ := Packet.fromBlock_sound hp
    rw [hd, Option.some.injEq] at hdata
    rw [hdata, hlen, hblock]

/-! ## Solving does not abort -/

/-- The solver of the window aborts on no matrix: it eliminates, or its Krylov sequences do not
start with one. -/
def SolverSafe (policy : SimdPolicy) (k : ℕ) : Prop := k ≤ 256 ∨ dot policy k startVec startVec ≠ 1

def Decoder.Done (k : ℕ) (d : Decoder) : Prop := d.k = k ∧ (d.isDecoded ∨ d.decodingMatrix.numRows ≥ d.k)

variable {slots : List (Option Packet)} {rows : List SparseRow}

private theorem gaussianElimination_ok (hrows : rows.length = k) (hslots : slots.length = k)
    (hok : ∀ r ∈ rows, RowOk k env.blockSize r) :
    ∃ b d, (collecting k slots rows).gaussianElimination env = .ok (b, d) ∧ d.Done k := by
  have hfn := rowOk_getD hrows hok
  obtain ⟨rank, g, hrun, hg, -⟩ := eliminateColumns_ok env 0 (Nat.zero_add k) hfn
  have hrec : Decoder.reconstruct env (ofFn k g) k slots = _ := reconstruct_ofFn env hslots hg
  rw [Decoder.gaussianElimination, show (collecting k slots rows).decodingMatrix = ofRows k rows from rfl,
    ofRows_eq_ofFn hrows, show (collecting k slots rows).k = k from rfl, hrun, ok_bind]
  dsimp only
  by_cases hrank : rank < k
  · rw [if_pos hrank]
    exact ⟨_, _, rfl, rfl, .inr (ofFn_numRows k g).ge⟩
  · rw [if_neg hrank, show (collecting k slots rows).systematicPackets = slots from rfl, hrec, ok_bind]
    exact ⟨_, _, rfl, rfl, .inl rfl⟩

private theorem wiedemannAlgorithm_ok (hk : 1 ≤ k) (hrows : rows.length = k) (hslots : slots.length = k)
    (hok : ∀ r ∈ rows, RowOk k env.blockSize r) (hsafe : dot env.policy k startVec startVec ≠ 1) :
    ∃ b d, (collecting k slots rows).wiedemannAlgorithm env = .ok (b, d) ∧ d.Done k := by
  have hfn := rowOk_getD hrows hok
  have hmatrix : (collecting k slots rows).decodingMatrix = ofFn k fun t => rows.getD t ⟨[], none⟩ :=
    ofRows_eq_ofFn hrows
  by_cases hs : KrylovUsable env.policy k fun r => (rows.getD r ⟨[], none⟩).coeff
  · obtain ⟨poly, c0Inv, -, -, -, hsolve⟩ := wiedemannSolve_usable env hk (fun t ht => (hfn t ht).wellFormed) hs
    rw [← hmatrix] at hsolve
    have hwidth : maxLen ((List.range k).map fun t => (rows.getD t ⟨[], none⟩).payload) ≤ env.blockSize := by
      apply maxLen_le
      intro q hq
      obtain ⟨t, ht, hp⟩ := List.mem_map.mp hq
      exact ((hfn t (List.mem_range.mp ht)).payload_length q hp).le
    rw [wiedemannAlgorithm_some (d := collecting k slots rows) hsolve (by simp [collecting, tabulate, hslots])
      (by simpa [tabulate] using fun _ _ => hwidth)]
    exact ⟨_, _, rfl, rfl, .inl rfl⟩
  · obtain ⟨r, hsolve⟩ := wiedemannSolve_ok hk (fun t ht => (hfn t ht).wellFormed) (by rwa [krylovTerm_zero])
    have hnone := wiedemannSolve_unusable hk (fun t ht => (hfn t ht).wellFormed) hs hsolve
    subst hnone
    rw [← hmatrix] at hsolve
    rw [Decoder.wiedemannAlgorithm, show (collecting k slots rows).k = k from rfl, hsolve, ok_bind]
    exact ⟨_, _, rfl, rfl, .inr (by simp [collecting, hrows])⟩

private theorem tryDecode_ok (hk : 1 ≤ k) (hrows : rows.length = k) (hslots : slots.length = k)
    (hok : ∀ r ∈ rows, RowOk k env.blockSize r) (hsafe : SolverSafe env.policy k) :
    ∃ b d, (collecting k slots rows).tryDecode env = .ok (b, d) ∧ d.Done k := by
  rw [Decoder.tryDecode, if_neg (by simp [collecting]), if_neg (by simp [collecting, hrows])]
  by_cases hsmall : k ≤ 256
  · have hstrategy : (collecting k slots rows).strategy = .gaussianElimination := if_neg (by omega)
    rw [hstrategy]
    exact gaussianElimination_ok hrows hslots hok
  · have hstrategy : (collecting k slots rows).strategy = .wiedemann := if_pos (by omega)
    rw [hstrategy]
    exact wiedemannAlgorithm_ok hk hrows hslots hok (hsafe.resolve_left hsmall)

/-! ## Runs -/

def Decoder.Sound (env : Platform) (k : ℕ) (d : Decoder) : Prop :=
  (∃ slots rows, d = collecting k slots rows ∧ slots.length = k ∧ rows.length < k ∧
    ∀ r ∈ rows, RowOk k env.blockSize r) ∨ d.Done k

theorem sound_new (env : Platform) (hk : 1 ≤ k) : (Decoder.new k).Sound env k :=
  .inl ⟨_, [], new_eq_collecting k, List.length_replicate, hk, by simp⟩

theorem Decoder.Sound.addPacket {d : Decoder} (h : d.Sound env k) (hk : 1 ≤ k) (hsafe : SolverSafe env.policy k)
    {p : Packet} (hp : PacketOk k env.blockSize p) :
    ∃ r d', d.addPacket env p = .ok (r, d') ∧ d'.Sound env k := by
  rcases h with ⟨slots, rows, rfl, hslots, hrows, hok⟩ | hdone
  · rw [addPacket_collecting env hrows hslots hp.coeffs]
    by_cases hrep : Repeated k slots p
    · rw [if_pos hrep]
      exact ⟨_, _, rfl, .inl ⟨slots, rows, rfl, hslots, hrows, hok⟩⟩
    rw [if_neg hrep]
    have hslots' : (slotsAfter k slots p).length = k := (slotsAfter_length k slots p).trans hslots
    have hlen : (rows ++ [packetRow k p]).length = rows.length + 1 := by simp
    have hok' : ∀ r ∈ rows ++ [packetRow k p], RowOk k env.blockSize r := by
      intro r hr
      rcases List.mem_append.mp hr with hr | hr
      · exact hok r hr
      · rw [List.mem_singleton.mp hr]
        exact rowOk_packetRow hp
    by_cases hlast : rows.length + 1 < k
    · rw [tryDecode_collecting (by omega), ok_bind]
      exact ⟨_, _, rfl, .inl ⟨_, _, rfl, hslots', by omega, hok'⟩⟩
    · obtain ⟨b, d, htry, hd⟩ := tryDecode_ok hk (by omega) hslots' hok' hsafe
      rw [htry, ok_bind]
      exact ⟨_, _, rfl, .inr hd⟩
  · rw [Decoder.addPacket, if_pos hdone.2]
    exact ⟨_, _, rfl, .inr hdone⟩

theorem Decoder.addPacket_accepts {d d' : Decoder} {p : Packet} {r : Except String Bool}
    (hp : p.isSystematic = false → ∃ c, p.coefficients = some c) (h : d.addPacket env p = .ok (r, d')) :
    ∃ b, r = .ok b := by
  have hrow : ∀ {d d' : Decoder} {row payload} {r : Except String Bool},
      d.addRow env row payload = .ok (r, d') → ∃ b, r = .ok b := by
    intro d d' row payload r h
    rw [Decoder.addRow, bind_eq_ok] at h
    obtain ⟨⟨b, d₁⟩, -, h⟩ := h
    cases h
    exact ⟨b, rfl⟩
  unfold Decoder.addPacket at h
  split at h
  · cases h
    exact ⟨_, rfl⟩
  split at h
  · simp only [bind_eq_ok] at h
    obtain ⟨row, -, slot, -, h⟩ := h
    split at h
    · cases h
      exact ⟨_, rfl⟩
    · rw [bind_eq_ok] at h
      obtain ⟨slots, -, h⟩ := h
      exact hrow h
  · rename_i hsys
    obtain ⟨c, hc⟩ := hp (by simpa using hsys)
    rw [hc] at h
    dsimp only at h
    rw [bind_eq_ok] at h
    obtain ⟨row, -, h⟩ := h
    exact hrow h

/-- Every call of a run returns, and one with a malformed packet is refused and changes nothing. -/
def Harmless (env : Platform) : Decoder → List Packet → Prop
  | _, [] => True
  | d, p :: ps => ∃ r d', d.addPacket env p = .ok (r, d') ∧
      (p.Malformed d.k → (∃ e, r = .error e) ∧ d'.decodingMatrix = d.decodingMatrix ∧
        d'.systematicPackets = d.systematicPackets ∧ d'.isDecoded = d.isDecoded) ∧
      Harmless env d' ps

theorem Decoder.Sound.harmless {d : Decoder} (h : d.Sound env k) (hk : 1 ≤ k) (hsafe : SolverSafe env.policy k)
    {ps : List Packet} (hps : ∀ p ∈ ps, PacketOk k env.blockSize p) : Harmless env d ps := by
  induction ps generalizing d with
  | nil => trivial
  | cons p ps ih =>
      obtain ⟨r, d', hadd, hd'⟩ := h.addPacket hk hsafe (hps p (by simp))
      have hdk : d.k = k := by
        rcases h with ⟨slots, rows, rfl, -⟩ | hdone
        · rfl
        · exact hdone.1
      refine ⟨r, d', hadd, ?_, ih hd' fun q hq => hps q (by simp [hq])⟩
      rintro ⟨hsys, hne⟩
      rw [hdk] at hne
      exact absurd ((hps p (by simp)).coeffLen_eq hsys) hne

theorem Harmless.wellFormed {d : Decoder} {ps : List Packet} (h : Harmless env d ps)
    (hps : ∀ p ∈ ps, Received env p) : ∀ p ∈ ps, ¬ p.Malformed d.k := by
  induction ps generalizing d with
  | nil => simp
  | cons p ps ih =>
      obtain ⟨r, d', hadd, hrefused, hrest⟩ := h
      have hdk := (Decoder.addPacket_cases hadd).1
      have hrest := ih hrest fun q hq => hps q (by simp [hq])
      rw [hdk] at hrest
      refine List.forall_mem_cons.mpr ⟨fun hmal => ?_, hrest⟩
      obtain ⟨⟨e, rfl⟩, -⟩ := hrefused hmal
      obtain ⟨b, hb⟩ := Decoder.addPacket_accepts (fun hsys =>
        ((hps p (by simp)).coefficients_some hsys).imp fun _ hc => hc.1) hadd
      cases hb

/-- A run over received packets is harmless exactly when no repair packet has the wrong width. -/
theorem harmless_iff (hk : 1 ≤ k) (hsafe : SolverSafe env.policy k) {ps : List Packet}
    (hps : ∀ p ∈ ps, Received env p) : Harmless env (Decoder.new k) ps ↔ ∀ p ∈ ps, ¬ p.Malformed k :=
  ⟨fun h => h.wellFormed hps,
    fun h => (sound_new env hk).harmless hk hsafe fun p hp => (hps p hp).packetOk (h p hp)⟩

/-- The repair frames `0 0 2 1 1 9` and `0 0 3 1 0 1 9`, received in blocks of eight bytes. -/
def twoSymbols : Packet := ⟨0, some [9, 0, 2, 1, 1, 9, 0, 0], 1, false, some [1, 1, 0, 0, 0, 0, 0, 0], 2⟩

def threeSymbols : Packet := ⟨0, some [9, 0, 3, 1, 0, 1, 9, 0], 1, false, some [1, 0, 1, 0, 0, 0, 0, 0], 3⟩

private theorem received_twoSymbols : Received ⟨.scalar, 8⟩ twoSymbols :=
  ⟨0, [0, 0, 2, 1, 1, 9, 0, 0], 6, rfl, rfl⟩

private theorem received_threeSymbols : Received ⟨.scalar, 8⟩ threeSymbols :=
  ⟨0, [0, 0, 3, 1, 0, 1, 9, 0], 7, rfl, rfl⟩

theorem harmless_iff_two_symbols : Harmless ⟨.scalar, 8⟩ (Decoder.new 2) [twoSymbols, twoSymbols] :=
  (harmless_iff (by decide) (.inl (by decide)) (by simp [received_twoSymbols])).mpr
    (by simp [Packet.Malformed, twoSymbols])

/-- A window of two accepts a row of three symbols, and the next packet makes the decoder abort. -/
theorem malformed_repair_aborts : Received ⟨.scalar, 8⟩ threeSymbols ∧ Received ⟨.scalar, 8⟩ twoSymbols ∧
    threeSymbols.Malformed 2 ∧ ¬ Harmless ⟨.scalar, 8⟩ (Decoder.new 2) [threeSymbols, twoSymbols] ∧
    ∃ d, (Decoder.new 2).addPacket ⟨.scalar, 8⟩ threeSymbols = .ok (.ok false, d) ∧
      d.decodingMatrix ≠ (Decoder.new 2).decodingMatrix ∧
      d.addPacket ⟨.scalar, 8⟩ twoSymbols = .error .indexOutOfBounds := by
  refine ⟨received_threeSymbols, received_twoSymbols, ⟨rfl, by decide⟩, ?_, _, rfl, by decide, by decide +kernel⟩
  rintro ⟨r, d', hadd, hrefused, -⟩
  obtain ⟨⟨e, rfl⟩, -⟩ := hrefused ⟨rfl, by decide⟩
  obtain ⟨b, hb⟩ := Decoder.addPacket_accepts (fun _ => ⟨_, rfl⟩) hadd
  cases hb

end QuicFuscate.Fec
