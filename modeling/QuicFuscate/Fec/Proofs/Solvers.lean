import QuicFuscate.Fec.Proofs.ExactElimination
import QuicFuscate.Fec.Proofs.Massey
import QuicFuscate.Framework.PolynomialInverse

/-!
# The two solvers of the decoder

On independent rows that all carry a payload, elimination ends with the solution of the system.  The
Wiedemann solver forms the inverse from a polynomial that it makes of the numbers `wᵀ Aᵗ w`, where `w`
is a fixed vector and `A` the coefficient matrix; its rows are those of the solution exactly where the
polynomial annihilates the solution.  Where the solver divides as the algorithm of Berlekamp and Massey
does, the polynomial is the shortest recurrence of these numbers.
-/

namespace QuicFuscate.Fec

open Framework CsrMatrix GF256

/-! ## Square systems -/

abbrev Equation := List UInt8 × List UInt8

def appendAll (k : ℕ) (eqs : List Equation) : CsrMatrix :=
  eqs.foldl (fun m e => m.appendRow e.1 (some e.2)) (CsrMatrix.new k)

structure SquareSystem (k width : ℕ) (eqs : List Equation) : Prop where
  length_eq : eqs.length = k
  coeffs_length : ∀ e ∈ eqs, e.1.length = k
  payload_length : ∀ e ∈ eqs, e.2.length = width

def coeffFn (eqs : List Equation) (r c : ℕ) : UInt8 := (eqs.getD r ([], [])).1.getD c 0

def payloadFn (eqs : List Equation) (r j : ℕ) : UInt8 := (eqs.getD r ([], [])).2.getD j 0

def byteMatrix (rows cols : ℕ) (a : ℕ → ℕ → UInt8) : Matrix (Fin rows) (Fin cols) GF256 := fun r c => mk (a r c)

def coeffMatrix (k : ℕ) (eqs : List Equation) : Matrix (Fin k) (Fin k) GF256 := byteMatrix k k (coeffFn eqs)

def payloadsOf (k width : ℕ) (eqs : List Equation) : Matrix (Fin k) (Fin width) GF256 :=
  byteMatrix k width (payloadFn eqs)

def equationRow (eqs : List Equation) (t : ℕ) : SparseRow :=
  ⟨nonzeroEntries (eqs.getD t ([], [])).1, some (eqs.getD t ([], [])).2⟩

variable {k width : ℕ} {eqs : List Equation} {policy : SimdPolicy}

private theorem coeff_equationRow (eqs : List Equation) (t : ℕ) : (equationRow eqs t).coeff = coeffFn eqs t := by
  funext c
  rw [equationRow, SparseRow.coeff_nonzeroEntries, coeffFn]

private theorem appendAll_eq (k : ℕ) (eqs : List Equation) :
    appendAll k eqs = ofRows k (eqs.map fun e => ⟨nonzeroEntries e.1, some e.2⟩) := by
  have hfold : ∀ rows, eqs.foldl (fun m e => m.appendRow e.1 (some e.2)) (ofRows k rows) =
      ofRows k (rows ++ eqs.map fun e => ⟨nonzeroEntries e.1, some e.2⟩) := by
    induction eqs with
    | nil => simp
    | cons e eqs ih =>
        intro rows
        rw [List.foldl_cons, appendRow_ofRows, ih]
        simp
  exact hfold []

private theorem appendAll_eq_ofFn (h : eqs.length = k) : appendAll k eqs = ofFn k (equationRow eqs) := by
  rw [appendAll_eq, ofRows_eq_ofFn (by simpa using h)]
  apply ofFn_congr
  intro t ht
  rw [List.getD_eq_getElem _ _ (by simpa [h] using ht), List.getElem_map, equationRow,
    List.getD_eq_getElem _ _ (by omega)]

theorem SquareSystem.getD_mem (h : SquareSystem k width eqs) {t : ℕ} (ht : t < k) : eqs.getD t ([], []) ∈ eqs := by
  rw [List.getD_eq_getElem _ _ (by rw [h.length_eq]; exact ht)]
  exact List.getElem_mem _

theorem SquareSystem.rowOk (h : SquareSystem k width eqs) {t : ℕ} (ht : t < k) :
    RowOk k width (equationRow eqs t) where
  wellFormed := SparseRow.wellFormed_nonzeroEntries (h.coeffs_length _ (h.getD_mem ht)).le _
  payload_length := by
    rintro p hp
    rw [← Option.some.inj hp]
    exact h.payload_length _ (h.getD_mem ht)

/-! ## Elimination -/

noncomputable def solution (k width : ℕ) (eqs : List Equation) : Matrix (Fin k) (Fin width) GF256 :=
  (coeffMatrix k eqs)⁻¹ * payloadsOf k width eqs

theorem SquareSystem.squareRows (h : SquareSystem k width eqs) :
    SquareRows k width (eqs.map fun e => ⟨nonzeroEntries e.1, some e.2⟩) where
  length_eq := (List.length_map _).trans h.length_eq
  wellFormed := by
    intro row hrow
    obtain ⟨e, he, rfl⟩ := List.mem_map.mp hrow
    exact SparseRow.wellFormed_nonzeroEntries (h.coeffs_length e he).le _
  payload := by
    intro row hrow
    obtain ⟨e, he, rfl⟩ := List.mem_map.mp hrow
    exact ⟨e.2, rfl, h.payload_length e he⟩

private theorem getD_equations (h : SquareSystem k width eqs) (t : Fin k) :
    (eqs.map fun e => (⟨nonzeroEntries e.1, some e.2⟩ : SparseRow)).getD t ⟨[], none⟩ = equationRow eqs t := by
  have ht : t.val < eqs.length := h.length_eq.symm ▸ t.isLt
  rw [List.getD_eq_getElem _ _ (by simpa using ht), List.getElem_map, equationRow, List.getD_eq_getElem _ _ ht]

theorem SquareSystem.rowMatrix_eq (h : SquareSystem k width eqs) :
    rowMatrix k (eqs.map fun e => ⟨nonzeroEntries e.1, some e.2⟩) = coeffMatrix k eqs := by
  funext r c
  rw [rowMatrix, getD_equations h, coeff_equationRow]
  rfl

theorem SquareSystem.rowSolution_eq (h : SquareSystem k width eqs) :
    rowSolution k width (eqs.map fun e => ⟨nonzeroEntries e.1, some e.2⟩) = solution k width eqs := by
  rw [rowSolution, solution, h.rowMatrix_eq]
  congr 1
  funext r j
  rw [rowPayloads, getD_equations h]
  rfl

private theorem blockVec_injective {p q : List UInt8} (hp : p.length = width) (hq : q.length = width)
    (h : ∀ j, blockVec width p j = blockVec width q j) : p = q := by
  refine List.ext_getElem (hp.trans hq.symm) fun j h1 h2 => ?_
  have hj := congrArg byte (h ⟨j, hp ▸ h1⟩)
  simpa [blockVec, h1, h2] using hj

private theorem gaussianElimination_solution {B : ℕ} {d : Decoder} (hd : d.k = k)
    (hm : d.decodingMatrix = appendAll k eqs)
    (hslots : d.systematicPackets.length = k) (h : SquareSystem k width eqs) (hB : width ≤ B)
    (hA : IsUnit (coeffMatrix k eqs).det) :
    ∃ data : ℕ → List UInt8,
      (∀ t : Fin k, (data t).length = width ∧ ∀ j, blockVec width (data t) j = solution k width eqs t j) ∧
      ∃ dg, d.gaussianElimination ⟨.scalar, B⟩ = .ok (true, dg) ∧ dg.systematicPackets =
        d.systematicPackets.mapIdx fun i slot => slot.or (some (paddedFrom ⟨.scalar, B⟩ i (data i))) := by
  rcases h.squareRows.gaussianElimination hd (hm.trans (appendAll_eq k eqs)) hslots hB with
    ⟨-, data, hdata, m, hrun⟩ | ⟨hsingular, -⟩
  · refine ⟨data, ?_, _, hrun, rfl⟩
    intro t
    rw [← h.rowSolution_eq]
    exact hdata t
  · rw [h.rowMatrix_eq] at hsingular
    exact absurd hA hsingular

/-! ## The polynomial solver -/

theorem mk_mulFn (a b : ℕ → ℕ → UInt8) (r c : ℕ) :
    mk (mulFn .scalar k a b r c) = ∑ t : Fin k, mk (a r t) * mk (b t c) := by
  rw [mulFn, mk_xorSum]
  apply Finset.sum_congr rfl
  intro t _
  rw [gfMul_scalar, mk_gfMulTable]

theorem byteMatrix_mulFn (rows : ℕ) (a b : ℕ → ℕ → UInt8) :
    byteMatrix rows width (mulFn .scalar k a b) = byteMatrix rows k a * byteMatrix k width b := by
  funext r c
  rw [Matrix.mul_apply, byteMatrix, mk_mulFn]
  rfl

theorem byteMatrix_powFn (a : ℕ → ℕ → UInt8) (t : ℕ) :
    byteMatrix k k (powFn .scalar k a t) = byteMatrix k k a ^ t := by
  induction t with
  | zero =>
      funext r c
      rw [pow_zero, Matrix.one_apply, byteMatrix, powFn]
      by_cases hrc : r = c
      · simp [hrc, mk_one]
      · have hval : r.val ≠ c.val := fun heq => hrc (Fin.ext heq)
        simp [hrc, hval, mk_zero]
  | succ t ih => rw [powFn, byteMatrix_mulFn, ih, pow_succ]

def coeffsOf (poly : List UInt8) (i : ℕ) : GF256 := mk (poly.getD i 0)

private theorem byteMatrix_inverseFn (a : ℕ → ℕ → UInt8) {poly : List UInt8} {c0Inv : UInt8}
    (hinv : mk c0Inv = (coeffsOf poly 0)⁻¹) :
    byteMatrix k k (inverseFn .scalar k poly c0Inv a) =
      powerQuotient (coeffsOf poly) (poly.length - 1) (byteMatrix k k a) := by
  funext r c
  rw [powerQuotient, Matrix.sum_apply, Finset.sum_range, byteMatrix, inverseFn, mk_xorSum]
  refine Finset.sum_congr rfl fun i _ => ?_
  rw [Matrix.smul_apply, ← byteMatrix_powFn, gfMul_scalar, mk_gfMulTable, gfMul_scalar, mk_gfMulTable, hinv,
    Nat.add_comm]
  rfl

def startVector (k : ℕ) (i : Fin k) : GF256 := mk (startVec i)

def moment (A : Matrix (Fin k) (Fin k) GF256) (t : ℕ) : GF256 := krylov A (startVector k) (startVector k) t

private theorem mk_krylovVec (a : ℕ → ℕ → UInt8) (t : ℕ) (r : Fin k) :
    mk (krylovVec .scalar k a startVec t r) = (byteMatrix k k a ^ t).mulVec (startVector k) r := by
  induction t generalizing r with
  | zero => rw [pow_zero, Matrix.one_mulVec, krylovVec, startVector]
  | succ t ih =>
      rw [krylovVec, mulVec, mk_xorSum, pow_succ', ← Matrix.mulVec_mulVec, Matrix.mulVec]
      apply Finset.sum_congr rfl
      intro c _
      rw [gfMul_scalar, mk_gfMulTable, ih]
      rfl

private theorem mk_krylovTerm (a : ℕ → ℕ → UInt8) (t : ℕ) :
    mk (krylovTerm .scalar k a startVec t) = moment (byteMatrix k k a) t := by
  rw [krylovTerm, dot, mk_xorSum, moment, krylov]
  apply Finset.sum_congr rfl
  intro i _
  rw [gfMul_scalar, mk_gfMulTable, mk_krylovVec]
  rfl

/-- Some of the first `2 * k` numbers is not zero, and the first is not one. -/
def Usable (A : Matrix (Fin k) (Fin k) GF256) : Prop := (∃ t < 2 * k, moment A t ≠ 0) ∧ moment A 0 ≠ 1

private theorem krylovUsable_iff (a : ℕ → ℕ → UInt8) : KrylovUsable .scalar k a ↔ Usable (byteMatrix k k a) := by
  have hzero : ∀ t, krylovTerm .scalar k a startVec t ≠ 0 ↔ moment (byteMatrix k k a) t ≠ 0 := by
    intro t
    rw [← mk_krylovTerm, Ne, Ne, mk_eq_zero]
  have hone : krylovTerm .scalar k a startVec 0 ≠ 1 ↔ moment (byteMatrix k k a) 0 ≠ 1 := by
    rw [← mk_krylovTerm, ← mk_one, Ne, Ne, mk_injective.eq_iff]
  simp only [KrylovUsable, Usable, hzero, hone]

def momentRecurrence (A : Matrix (Fin k) (Fin k) GF256) : Recurrence GF256 :=
  Recurrence.upTo (2 * k) (moment A) (2 * k)

private theorem berlekampMassey_krylovList {B : ℕ} {a : ℕ → ℕ → UInt8} {poly : List UInt8}
    (h : berlekampMassey ⟨.scalar, B⟩ (krylovList .scalar k a) = .ok (some poly)) :
    poly.length = (momentRecurrence (byteMatrix k k a)).l + 1 ∧
      ∀ p < poly.length, coeffsOf poly p = (momentRecurrence (byteMatrix k k a)).c p := by
  have hmoment : ∀ t < (krylovList .scalar k a).length,
      mk ((krylovList .scalar k a).getD t 0) = moment (byteMatrix k k a) t := by
    intro t ht
    rw [krylovList_getD _ _ (by simpa using ht), mk_krylovTerm]
  have hpoly := berlekampMassey_eq hmoment h
  rwa [krylovList_length] at hpoly

private theorem maxLen_equationRow (hk : 1 ≤ k) (h : SquareSystem k width eqs) :
    maxLen ((List.range k).map fun t => (equationRow eqs t).payload) = width := by
  refine le_antisymm (maxLen_le fun p hp => ?_) ?_
  · obtain ⟨t, ht, hp⟩ := List.mem_map.mp hp
    exact ((h.rowOk (List.mem_range.mp ht)).payload_length p hp).le
  · rw [← h.payload_length _ (h.getD_mem (by omega : 0 < k))]
    exact length_le_maxLen (List.mem_map.mpr ⟨0, List.mem_range.mpr (by omega), rfl⟩)

noncomputable def polynomialSolution (k width : ℕ) (eqs : List Equation) : Matrix (Fin k) (Fin width) GF256 :=
  powerQuotient (momentRecurrence (coeffMatrix k eqs)).c (momentRecurrence (coeffMatrix k eqs)).l (coeffMatrix k eqs) *
    payloadsOf k width eqs

private theorem wiedemannAlgorithm_solution {B : ℕ} {d : Decoder} (hk : 1 ≤ k) (hd : d.k = k)
    (hm : d.decodingMatrix = appendAll k eqs) (hslots : d.systematicPackets.length = k)
    (h : SquareSystem k width eqs) (hB : width ≤ B) (hs : Usable (coeffMatrix k eqs)) :
    (momentRecurrence (coeffMatrix k eqs)).c 0 ≠ 0 ∧ ∃ data : ℕ → List UInt8,
      (∀ t : Fin k, (data t).length = width ∧
        ∀ j, blockVec width (data t) j = polynomialSolution k width eqs t j) ∧
      ∃ dw, d.wiedemannAlgorithm ⟨.scalar, B⟩ = .ok (true, dw) ∧ dw.systematicPackets =
        d.systematicPackets.mapIdx fun i slot => slot.or (some (paddedFrom ⟨.scalar, B⟩ i (data i))) := by
  have hcoeff : (fun r => (equationRow eqs r).coeff) = coeffFn eqs := funext (coeff_equationRow eqs)
  have hkrylov : KrylovUsable .scalar k (coeffFn eqs) := (krylovUsable_iff _).mpr hs
  obtain ⟨poly, c0Inv, hmassey, hpoly0, hinv, hsolve⟩ := wiedemannSolve_usable ⟨.scalar, B⟩ hk
    (fun t ht => (h.rowOk ht).wellFormed) (hcoeff ▸ hkrylov)
  rw [hcoeff] at hmassey hsolve
  rw [maxLen_equationRow hk h, ← appendAll_eq_ofFn h.length_eq, ← hm] at hsolve
  obtain ⟨inv, hinv', hmk⟩ := gfInv_of_ne hpoly0
  rw [hinv', Except.ok.injEq] at hinv
  subst hinv
  obtain ⟨hlen, hpoly⟩ := berlekampMassey_krylovList hmassey
  have hquotient : byteMatrix k k (inverseFn .scalar k poly inv (coeffFn eqs)) =
      powerQuotient (momentRecurrence (coeffMatrix k eqs)).c (momentRecurrence (coeffMatrix k eqs)).l
        (coeffMatrix k eqs) := by
    rw [byteMatrix_inverseFn _ hmk, hlen, Nat.add_sub_cancel]
    exact powerQuotient_congr (fun p hp => hpoly p (by omega)) _
  have hrows : ∀ row ∈ tabulate k width (mulFn .scalar k (inverseFn .scalar k poly inv (coeffFn eqs))
      (payloadByte (equationRow eqs))), row.length ≤ B := by
    intro row hrow
    obtain ⟨r, -, rfl⟩ := List.mem_map.mp hrow
    simpa using hB
  refine ⟨?_, fun t => (List.range width).map (mulFn .scalar k (inverseFn .scalar k poly inv (coeffFn eqs))
    (payloadByte (equationRow eqs)) t), fun t => ⟨by simp, fun j => ?_⟩,
    _, wiedemannAlgorithm_some (by rw [hd]; exact hsolve) (by simp [tabulate, hslots]) hrows, ?_⟩
  · rw [coeffMatrix, ← hpoly 0 (by omega)]
    exact fun hzero => hpoly0 (mk_eq_zero.mp hzero)
  · rw [polynomialSolution, ← hquotient, payloadsOf, ← byteMatrix_mulFn]
    simp [blockVec, byteMatrix]
    rfl
  · refine List.ext_getElem (by simp) fun i h1 h2 => ?_
    have hi : i < k := by simpa [hslots] using h1
    simp [solvedBy, paddedFrom, tabulate, hi]

/-! ## When they agree -/

def SolversAgree (env : Platform) (d : Decoder) : Prop :=
  ∃ dw dg, d.wiedemannAlgorithm env = .ok (true, dw) ∧ d.gaussianElimination env = .ok (true, dg) ∧
    dw.systematicPackets = dg.systematicPackets

/-- The polynomial of the recurrence, taken at the coefficient matrix, sends the solution to zero in
row `i`. -/
def Annihilates (k width : ℕ) (eqs : List Equation) (i : Fin k) : Prop :=
  ∀ j, (polyAt (momentRecurrence (coeffMatrix k eqs)).c ((momentRecurrence (coeffMatrix k eqs)).l + 1)
    (coeffMatrix k eqs) * solution k width eqs) i j = 0

private theorem mapIdx_or_eq_iff {slots : List (Option Packet)} (hslots : slots.length = k) (f g : ℕ → Packet) :
    (slots.mapIdx fun i slot => slot.or (some (f i))) = (slots.mapIdx fun i slot => slot.or (some (g i))) ↔
      ∀ i : Fin k, slots.getD i none = none → f i = g i := by
  constructor
  · intro h i hnone
    have hi := congrArg (fun l => l.getD i.val none) h
    have hlt : i.val < slots.length := hslots ▸ i.isLt
    have hget : slots[i.val] = none := by rwa [List.getD_eq_getElem _ _ hlt] at hnone
    simpa [List.getD_eq_getElem?_getD, hlt, hget] using hi
  · intro h
    refine List.ext_getElem (by simp) fun i h1 h2 => ?_
    have hlt : i < slots.length := by simpa using h1
    cases hslot : slots[i] with
    | some q => simp [hslot]
    | none => simpa [hslot] using h ⟨i, hslots ▸ hlt⟩ (by rw [List.getD_eq_getElem _ _ hlt, hslot])

private theorem paddedFrom_eq_iff {env : Platform} {i : ℕ} {p q : List UInt8} (hp : p.length = width)
    (hq : q.length = width) : paddedFrom env i p = paddedFrom env i q ↔
      ∀ j, blockVec width p j = blockVec width q j := by
  constructor
  · intro h
    have hdata := Option.some.inj (congrArg Packet.data h)
    rw [List.append_inj_left hdata (hp.trans hq.symm)]
    exact fun _ => rfl
  · intro h
    rw [blockVec_injective hp hq h]

private theorem solversAgree_iff_of_usable {B : ℕ} {d : Decoder} (hk : 1 ≤ k) (hd : d.k = k)
    (hm : d.decodingMatrix = appendAll k eqs) (hslots : d.systematicPackets.length = k)
    (h : SquareSystem k width eqs) (hB : width ≤ B) (hA : IsUnit (coeffMatrix k eqs).det)
    (hs : Usable (coeffMatrix k eqs)) :
    SolversAgree ⟨.scalar, B⟩ d ↔
      ∀ i : Fin k, d.systematicPackets.getD i none = none → Annihilates k width eqs i := by
  obtain ⟨dataG, hdataG, dg, hrunG, hslotsG⟩ := gaussianElimination_solution hd hm hslots h hB hA
  obtain ⟨hpoly, dataW, hdataW, dw, hrunW, hslotsW⟩ := wiedemannAlgorithm_solution hk hd hm hslots h hB hs
  have hrow : ∀ i : Fin k, paddedFrom ⟨.scalar, B⟩ i (dataW i) = paddedFrom ⟨.scalar, B⟩ i (dataG i) ↔
      Annihilates k width eqs i := by
    intro i
    rw [paddedFrom_eq_iff (hdataW i).1 (hdataG i).1]
    refine forall_congr' fun j => ?_
    rw [(hdataW i).2 j, (hdataG i).2 j]
    exact powerQuotient_entry_iff hpoly _ hA (payloadsOf k width eqs) i j
  have hsame : dw.systematicPackets = dg.systematicPackets ↔
      ∀ i : Fin k, d.systematicPackets.getD i none = none → Annihilates k width eqs i := by
    rw [hslotsW, hslotsG, mapIdx_or_eq_iff hslots]
    exact forall_congr' fun i => imp_congr_right fun _ => hrow i
  rw [← hsame]
  constructor
  · rintro ⟨dw', dg', hw, hg, heq⟩
    rw [hrunW, Except.ok.injEq, Prod.mk.injEq] at hw
    rw [hrunG, Except.ok.injEq, Prod.mk.injEq] at hg
    rw [hw.2, hg.2, heq]
  · intro heq
    exact ⟨dw, dg, hrunW, hrunG, heq⟩

private theorem wiedemannAlgorithm_succeeds_iff {B : ℕ} {d : Decoder} (hk : 1 ≤ k) (hd : d.k = k)
    (hm : d.decodingMatrix = appendAll k eqs) (hslots : d.systematicPackets.length = k)
    (h : SquareSystem k width eqs) (hB : width ≤ B) :
    (∃ dw, d.wiedemannAlgorithm ⟨.scalar, B⟩ = .ok (true, dw)) ↔ Usable (coeffMatrix k eqs) := by
  constructor
  · rintro ⟨dw, hw⟩
    by_contra hs
    -- the solver reports failure, if it returns at all
    rw [Decoder.wiedemannAlgorithm, hd, hm, appendAll_eq_ofFn h.length_eq, bind_eq_ok] at hw
    obtain ⟨r, hr, hw⟩ := hw
    have hcoeff : (fun r => (equationRow eqs r).coeff) = coeffFn eqs := funext (coeff_equationRow eqs)
    have hkrylov : ¬ KrylovUsable .scalar k (coeffFn eqs) := fun hu => hs ((krylovUsable_iff _).mp hu)
    have hnone := wiedemannSolve_unusable hk (fun t ht => (h.rowOk ht).wellFormed) (hcoeff ▸ hkrylov) hr
    subst hnone
    cases hw
  · intro hs
    obtain ⟨-, -, -, dw, hw, -⟩ := wiedemannAlgorithm_solution hk hd hm hslots h hB hs
    exact ⟨dw, hw⟩

/-! ## When the recurrence is the shortest one -/

/-- The sequence of the numbers starts with zero, and the algorithm of Berlekamp and Massey corrects
its recurrence of them with divisions by one only. -/
def UnitDivisions (A : Matrix (Fin k) (Fin k) GF256) : Prop :=
  moment A 0 = 0 ∧ ∀ i < 2 * k, DividesRight (moment A) i

/-- The shortest recurrence of the numbers, read as a polynomial in the coefficient matrix, sends the
solution to zero in row `i`. -/
def ShortestAnnihilates (k width : ℕ) (eqs : List Equation) (i : Fin k) : Prop :=
  ∀ c l, Shortest (moment (coeffMatrix k eqs)) c l (2 * k) →
    ∀ j, (polyAt c (l + 1) (coeffMatrix k eqs) * solution k width eqs) i j = 0

/-- Row `i` of the solution, and with it what any polynomial in the matrix makes of it, is zero. -/
def Vanishes (k width : ℕ) (eqs : List Equation) (i : Fin k) : Prop :=
  ∀ (t : ℕ) (j : Fin width), (coeffMatrix k eqs ^ t * solution k width eqs) i j = 0

theorem Vanishes.annihilates {i : Fin k} (h : Vanishes k width eqs i) : Annihilates k width eqs i := by
  intro j
  rw [polyAt_mul_apply]
  apply Finset.sum_eq_zero
  intro t _
  rw [h t j, mul_zero]

/-- Twice the size of the matrix is enough terms for the shortest recurrence to be the only one. -/
private theorem shortest_le {A : Matrix (Fin k) (Fin k) GF256} {c : ℕ → GF256} {l : ℕ}
    (h : Shortest (moment A) c l (2 * k)) : l ≤ k := by
  have hcharpoly := krylov_generates A (startVector k) (startVector k) (2 * k)
  rw [Fintype.card_fin] at hcharpoly
  exact h.2 _ k hcharpoly

theorem UnitDivisions.annihilates_iff (h : UnitDivisions (coeffMatrix k eqs)) (i : Fin k) :
    Annihilates k width eqs i ↔ ShortestAnnihilates k width eqs i := by
  have hfound := shortest_of_dividesRight h.1 h.2
  constructor
  · intro hzero c l hc j
    obtain rfl : l = (momentRecurrence (coeffMatrix k eqs)).l :=
      le_antisymm (hc.2 _ _ hfound.1) (hfound.2 _ _ hc.1)
    have hle := shortest_le hc
    rw [polyAt_congr fun p hp => hc.unique hfound (by omega) (Nat.lt_succ_iff.mp hp)]
    exact hzero j
  · intro hall
    exact hall _ _ hfound

/-- The slot is filled with zeros by both solvers, or the divisions are right and the shortest
recurrence annihilates its row. -/
def Settled (k width : ℕ) (eqs : List Equation) (i : Fin k) : Prop :=
  Vanishes k width eqs i ∨ UnitDivisions (coeffMatrix k eqs) ∧ ShortestAnnihilates k width eqs i

/-- On a nonsingular system the polynomial solver succeeds exactly when the numbers `wᵀ Aᵗ w` are usable.
Its slots are then those of elimination if every empty one is settled, and where all divisions are
right, only then. -/
theorem solvers_interchangeable {B : ℕ} {d : Decoder} (hk : 1 ≤ k) (hd : d.k = k)
    (hm : d.decodingMatrix = appendAll k eqs) (hslots : d.systematicPackets.length = k)
    (h : SquareSystem k width eqs) (hB : width ≤ B) (hA : (coeffMatrix k eqs).det ≠ 0) :
    ((∃ dw, d.wiedemannAlgorithm ⟨.scalar, B⟩ = .ok (true, dw)) ↔ Usable (coeffMatrix k eqs)) ∧
      (Usable (coeffMatrix k eqs) →
        (∀ i : Fin k, d.systematicPackets.getD i none = none → Settled k width eqs i) →
        SolversAgree ⟨.scalar, B⟩ d) ∧
      (UnitDivisions (coeffMatrix k eqs) →
        (SolversAgree ⟨.scalar, B⟩ d ↔ Usable (coeffMatrix k eqs) ∧
          ∀ i : Fin k, d.systematicPackets.getD i none = none → ShortestAnnihilates k width eqs i)) := by
  have hsucceeds := wiedemannAlgorithm_succeeds_iff hk hd hm hslots h hB
  have hagree : Usable (coeffMatrix k eqs) → (SolversAgree ⟨.scalar, B⟩ d ↔
      ∀ i : Fin k, d.systematicPackets.getD i none = none → Annihilates k width eqs i) :=
    solversAgree_iff_of_usable hk hd hm hslots h hB (isUnit_iff_ne_zero.mpr hA)
  refine ⟨hsucceeds, fun hs hsettled => (hagree hs).mpr fun i hi => ?_, fun hunit => ⟨fun hboth => ?_, ?_⟩⟩
  · rcases hsettled i hi with hzero | ⟨hunit, hshortest⟩
    · exact hzero.annihilates
    · exact (hunit.annihilates_iff i).mpr hshortest
  · obtain ⟨dw, dg, hw, hg, heq⟩ := hboth
    have hs := hsucceeds.mp ⟨dw, hw⟩
    exact ⟨hs, fun i hi => (hunit.annihilates_iff i).mp ((hagree hs).mp ⟨dw, dg, hw, hg, heq⟩ i hi)⟩
  · rintro ⟨hs, hall⟩
    exact (hagree hs).mpr fun i hi => (hunit.annihilates_iff i).mpr (hall i hi)

/-- Three equations whose matrix is its own inverse. -/
def involution : List Equation := [([1, 1, 1], [7]), ([0, 1, 0], [9]), ([0, 0, 1], [200])]

/-- A decoder for two packets, both missing, that holds two equations. -/
def pairDecoder (eqs : List Equation) : Decoder := { Decoder.new 2 with decodingMatrix := appendAll 2 eqs }

def pairSlots (a b : UInt8) : List (Option Packet) :=
  [some ⟨0, some [a], 1, true, none, 0⟩, some ⟨1, some [b], 1, true, none, 0⟩]

private theorem exists_solved {x : Checked (Bool × Decoder)} {slots : List (Option Packet)}
    (h : x.toOption.any (fun r => r.1 && r.2.systematicPackets = slots) = true) :
    ∃ d, x = .ok (true, d) ∧ d.systematicPackets = slots := by
  obtain ⟨⟨b, d⟩, hx, hr⟩ := exists_ok_of_any h
  simp only [Bool.and_eq_true, decide_eq_true_eq] at hr
  exact ⟨d, hr.1 ▸ hx, hr.2⟩

private def alternating (p : ℕ) : GF256 := if p % 2 = 0 then 1 else 0

private theorem moment_involution : ∀ t < 6, moment (coeffMatrix 3 involution) t = alternating (t + 1) := by
  decide +kernel

private theorem shortest_alternating : Shortest (moment (coeffMatrix 3 involution)) alternating 2 (2 * 3) := by
  have hgen : ∀ i < 6, 2 ≤ i → residualAt (moment (coeffMatrix 3 involution)) alternating 2 i = 0 := by
    decide +kernel
  refine ⟨⟨rfl, fun i hl hi => hgen i hi hl⟩, fun c l h => ?_⟩
  by_contra hlt
  -- the second term is the first one that is not zero
  have hsecond := h.2 1 (by omega) (by decide)
  obtain rfl | rfl : l = 0 ∨ l = 1 := by omega
  · rw [residualAt, Finset.sum_range_one, h.1, moment_involution 1 (by decide)] at hsecond
    exact absurd hsecond (by decide +kernel)
  · rw [residualAt, Finset.sum_range_succ, Finset.sum_range_one, h.1, moment_involution 1 (by decide),
      moment_involution 0 (by decide), show alternating (0 + 1) = 0 from rfl, mul_zero, add_zero] at hsecond
    exact absurd hsecond (by decide +kernel)

/-- The sequence of the matrix is `0 1 0 1 0 1`, and its shortest recurrence `1 0 1` annihilates it. -/
theorem solvers_interchangeable_involution :
    UnitDivisions (coeffMatrix 3 involution) ∧ (∀ i, ShortestAnnihilates 3 1 involution i) ∧
      SolversAgree ⟨.scalar, 1⟩ { Decoder.new 3 with decodingMatrix := appendAll 3 involution } := by
  have hunit : UnitDivisions (coeffMatrix 3 involution) := by
    refine ⟨moment_involution 0 (by decide), ?_⟩
    unfold DividesRight
    decide +kernel
  have hzero : polyAt alternating (2 + 1) (coeffMatrix 3 involution) = 0 := by
    have hentry : ∀ i : Fin 3 × Fin 3, polyAt alternating (2 + 1) (coeffMatrix 3 involution) i.1 i.2 = 0 := by
      decide +kernel
    exact funext₂ fun i j => hentry (i, j)
  have hshortest : ∀ i, ShortestAnnihilates 3 1 involution i := by
    intro i c l h j
    obtain rfl : l = 2 := le_antisymm (h.2 _ _ shortest_alternating.1) (shortest_alternating.2 _ _ h.1)
    rw [polyAt_congr fun p hp => h.unique shortest_alternating (by decide) (Nat.lt_succ_iff.mp hp), hzero,
      Matrix.zero_mul, Matrix.zero_apply]
  have husable : Usable (coeffMatrix 3 involution) := by
    refine ⟨⟨1, by decide, ?_⟩, ?_⟩
    · rw [moment_involution 1 (by decide)]
      decide +kernel
    · rw [moment_involution 0 (by decide)]
      decide +kernel
  have hdet : (coeffMatrix 3 involution).det ≠ 0 := by
    rw [Matrix.det_fin_three]
    decide +kernel
  have hsystem : SquareSystem 3 1 involution := ⟨rfl, by decide, by decide⟩
  have hboth := solvers_interchangeable (B := 1)
    (d := { Decoder.new 3 with decodingMatrix := appendAll 3 involution }) (by decide) rfl rfl rfl hsystem le_rfl hdet
  exact ⟨hunit, hshortest, hboth.2.1 husable fun i _ => .inr ⟨hunit, hshortest i⟩⟩

/-- On the identity the polynomial solver succeeds with other bytes than elimination. -/
theorem solvers_disagree_identity :
    (∃ dw, (pairDecoder [([1, 0], [1]), ([0, 1], [2])]).wiedemannAlgorithm ⟨.scalar, 1⟩ = .ok (true, dw) ∧
      dw.systematicPackets = pairSlots 70 140) ∧
    (∃ dg, (pairDecoder [([1, 0], [1]), ([0, 1], [2])]).gaussianElimination ⟨.scalar, 1⟩ = .ok (true, dg) ∧
      dg.systematicPackets = pairSlots 1 2) ∧
    ¬ SolversAgree ⟨.scalar, 1⟩ (pairDecoder [([1, 0], [1]), ([0, 1], [2])]) := by
  obtain ⟨dw, hw, hslotsW⟩ : ∃ dw, (pairDecoder [([1, 0], [1]), ([0, 1], [2])]).wiedemannAlgorithm ⟨.scalar, 1⟩ =
      .ok (true, dw) ∧ dw.systematicPackets = pairSlots 70 140 := exists_solved (by decide +kernel)
  obtain ⟨dg, hg, hslotsG⟩ : ∃ dg, (pairDecoder [([1, 0], [1]), ([0, 1], [2])]).gaussianElimination ⟨.scalar, 1⟩ =
      .ok (true, dg) ∧ dg.systematicPackets = pairSlots 1 2 := exists_solved (by decide +kernel)
  refine ⟨⟨dw, hw, hslotsW⟩, ⟨dg, hg, hslotsG⟩, ?_⟩
  rintro ⟨dw', dg', hw', hg', heq⟩
  rw [hw, Except.ok.injEq, Prod.mk.injEq] at hw'
  rw [hg, Except.ok.injEq, Prod.mk.injEq] at hg'
  rw [← hw'.2, ← hg'.2, hslotsW, hslotsG] at heq
  exact absurd heq (by decide)

end QuicFuscate.Fec
