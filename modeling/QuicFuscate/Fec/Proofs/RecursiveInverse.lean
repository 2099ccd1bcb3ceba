import QuicFuscate.Fec.Proofs.Solvers
import QuicFuscate.Fec.RecursiveInverse
import QuicFuscate.Framework.SchurComplement

/-!
# What block-recursive inversion computes

The recursion splits a leading half off and goes on with the Schur complement, down to single entries.
These are not zero exactly if no leading square of the matrix is singular.  Then the result is the
inverse; otherwise the recursion asks for the inverse of zero.
-/

namespace QuicFuscate.Fec

open Framework GF256 Matrix

variable {B n p q rows cols : ℕ} {f : ℕ → ℕ → UInt8}

/-! ## Blocks -/

private theorem copyBlock_ok {R C r₀ c₀ : ℕ} (hr : r₀ + rows ≤ R) (hc : c₀ + cols ≤ C) (f : ℕ → ℕ → UInt8) :
    copyBlock (tabulate R C f) r₀ c₀ rows cols = .ok (tabulate rows cols fun r c => f (r₀ + r) (c₀ + c)) := by
  apply mapM_of_forall_ok
  intro i hi
  have hi := List.mem_range.mp hi
  rw [readAt_tabulate (by omega), ok_bind]
  apply mapM_of_forall_ok
  intro j hj
  have hj := List.mem_range.mp hj
  exact readAt_range_map (by omega) _

private theorem xorMatrix_ok (x y : ℕ → ℕ → UInt8) : xorMatrix rows cols (tabulate rows cols x) (tabulate rows cols y) =
    .ok (tabulate rows cols fun r c => x r c ^^^ y r c) := by
  apply mapM_of_forall_ok
  intro i hi
  have hi := List.mem_range.mp hi
  rw [readAt_tabulate hi, ok_bind, readAt_tabulate hi, ok_bind]
  apply mapM_of_forall_ok
  intro j hj
  have hj := List.mem_range.mp hj
  rw [readAt_range_map hj, ok_bind, readAt_range_map hj]
  rfl

private theorem joinRows_ok (x y : ℕ → ℕ → UInt8) : joinRows rows p q (tabulate rows p x) (tabulate rows q y) =
    .ok (tabulate rows (p + q) fun r c => if c < p then x r c else y r (c - p)) := by
  apply mapM_of_forall_ok
  intro i hi
  have hi := List.mem_range.mp hi
  have hread : ∀ (l : ℕ) (g : ℕ → UInt8), (List.range l).mapM (fun j => readAt ((List.range l).map g) j) =
      .ok ((List.range l).map g) := by
    intro l g
    apply mapM_of_forall_ok
    intro j hj
    exact readAt_range_map (List.mem_range.mp hj) g
  rw [readAt_tabulate hi, ok_bind, readAt_tabulate hi, ok_bind, hread, ok_bind, hread, ok_bind, range_map_append]
  rfl

private theorem tabulate_append (x y : ℕ → ℕ → UInt8) : tabulate p cols x ++ tabulate q cols y =
    tabulate (p + q) cols fun r c => if r < p then x r c else y (r - p) c := by
  rw [tabulate, tabulate, range_map_append, tabulate]
  apply List.map_congr_left
  intro r _
  split <;> rfl

/-! ## The two halves of a step -/

section Step

variable (f : ℕ → ℕ → UInt8) (p q : ℕ) (x y : ℕ → ℕ → UInt8)

def lowerTimes (r c : ℕ) : UInt8 := mulFn .scalar p (fun r c => f (p + r) c) x r c

def schurFn (r c : ℕ) : UInt8 :=
  f (p + r) (p + c) ^^^ mulFn .scalar p (lowerTimes f p x) (fun r c => f r (p + c)) r c

def upperBetween (r c : ℕ) : UInt8 := mulFn .scalar q (mulFn .scalar p x fun r c => f r (p + c)) y r c

def assembled (r c : ℕ) : UInt8 :=
  if r < p then
    if c < p then x r c ^^^ mulFn .scalar q (upperBetween f p q x y) (lowerTimes f p x) r c
    else upperBetween f p q x y r (c - p)
  else if c < p then mulFn .scalar q y (lowerTimes f p x) (r - p) c else y (r - p) (c - p)

end Step

private theorem assembleInverse_ok (hp : 1 ≤ p) (hq : 1 ≤ q) (f x y : ℕ → ℕ → UInt8) :
    assembleInverse ⟨.scalar, B⟩ p q (tabulate p q fun r c => f r (p + c)) (tabulate p p x)
        (tabulate q p (lowerTimes f p x)) (tabulate q q y) =
      .ok (tabulate (p + q) (p + q) (assembled f p q x y)) := by
  have hlen : (tabulate p p x).length = p := by simp [tabulate]
  have hfield : (tabulate p q (upperBetween f p q x y)).map (fun row => row.map fun val => gfMulTable val 1) =
      tabulate p q (upperBetween f p q x y) := by
    simp [tabulate, gfMulTable_one]
  have hleft : matMul ⟨.scalar, B⟩ (tabulate p p x) (tabulate p q fun r c => f r (p + c)) =
      .ok (tabulate p q (mulFn .scalar p x fun r c => f r (p + c))) := matMul_ok hp _ _
  have hupper : matMul ⟨.scalar, B⟩ (tabulate p q (mulFn .scalar p x fun r c => f r (p + c))) (tabulate q q y) =
      .ok (tabulate p q (upperBetween f p q x y)) := matMul_ok hq _ _
  simp only [assembleInverse, hleft, hupper, hfield, hlen, ok_bind, pure_eq_ok, gfMul_scalar, matMul_ok hq,
    xorMatrix_ok,
    joinRows_ok, tabulate_append]
  rfl

/-! ## Blocks over the field -/

def fieldTable (f : ℕ → ℕ → UInt8) (r c : ℕ) : GF256 := mk (f r c)

private theorem block_right (f : ℕ → ℕ → UInt8) (p q : ℕ) :
    block (fieldTable f) 0 p p q = byteMatrix p q fun r c => f r (p + c) := by
  funext r c
  rw [block, Nat.zero_add]
  rfl

private theorem block_below (f : ℕ → ℕ → UInt8) (p q : ℕ) :
    block (fieldTable f) p 0 q p = byteMatrix q p fun r c => f (p + r) c := by
  funext r c
  rw [block, Nat.zero_add]
  rfl

private theorem fieldTable_schurFn (f x : ℕ → ℕ → UInt8) (p : ℕ) :
    fieldTable (schurFn f p x) = schur (fieldTable f) p (byteMatrix p p x) := by
  funext r c
  rw [fieldTable, schurFn, mk_xor, mk_mulFn, schur, sub_eq_add]
  congr 1
  apply Finset.sum_congr rfl
  intro t _
  rw [lowerTimes, mk_mulFn]
  rfl

private theorem byteMatrix_assembled (f x y : ℕ → ℕ → UInt8) (p q : ℕ) :
    (byteMatrix (p + q) (p + q) (assembled f p q x y)).submatrix finSumFinEquiv finSumFinEquiv =
      fromBlocks (byteMatrix p p x + byteMatrix p p x * block (fieldTable f) 0 p p q * byteMatrix q q y *
          block (fieldTable f) p 0 q p * byteMatrix p p x)
        (-(byteMatrix p p x * block (fieldTable f) 0 p p q * byteMatrix q q y))
        (-(byteMatrix q q y * block (fieldTable f) p 0 q p * byteMatrix p p x)) (byteMatrix q q y) := by
  have hlower : byteMatrix q p (lowerTimes f p x) = block (fieldTable f) p 0 q p * byteMatrix p p x := by
    rw [block_below]
    exact byteMatrix_mulFn q _ x
  have hupper : byteMatrix p q (upperBetween f p q x y) =
      byteMatrix p p x * block (fieldTable f) 0 p p q * byteMatrix q q y := by
    rw [block_right, ← byteMatrix_mulFn]
    exact byteMatrix_mulFn p _ y
  have hneg : ∀ {r c : ℕ} (M : Matrix (Fin r) (Fin c) GF256), -M = M := fun _ => rfl
  rw [hneg, hneg, Matrix.mul_assoc _ (block (fieldTable f) p 0 q p), ← hupper,
    Matrix.mul_assoc (byteMatrix q q y), ← hlower,
    ← byteMatrix_mulFn, ← byteMatrix_mulFn]
  funext r c
  cases r <;> cases c <;> simp [assembled, byteMatrix, mk_xor]

private theorem mul_assembled {f x y : ℕ → ℕ → UInt8} (hx : byteMatrix p p f * byteMatrix p p x = 1)
    (hy : byteMatrix q q (schurFn f p x) * byteMatrix q q y = 1) :
    byteMatrix (p + q) (p + q) f * byteMatrix (p + q) (p + q) (assembled f p q x y) = 1 := by
  have hleading : leading (schur (fieldTable f) p (byteMatrix p p x)) q = byteMatrix q q (schurFn f p x) := by
    rw [← fieldTable_schurFn]
    rfl
  have hblocks := fromBlocks_mul_eq_one (f := fieldTable f) hx (by rw [hleading]; exact hy)
  rw [← byteMatrix_assembled, ← leading_submatrix, submatrix_mul_equiv] at hblocks
  apply (reindex finSumFinEquiv.symm finSumFinEquiv.symm).injective
  rw [reindex_apply, reindex_apply, Equiv.symm_symm, submatrix_one_equiv]
  exact hblocks

/-! ## The recursion -/

/-- No leading square of the table up to size `n` is singular. -/
abbrev Regular (f : ℕ → ℕ → UInt8) (n : ℕ) : Prop := RegularUpTo (fieldTable f) n

def Inverts (B fuel n : ℕ) (f : ℕ → ℕ → UInt8) : Prop :=
  ∃ g, recursiveInverseLoop ⟨.scalar, B⟩ fuel (tabulate n n f) = .ok (some (tabulate n n g)) ∧
    byteMatrix n n f * byteMatrix n n g = 1

private theorem regular_one_iff (f : ℕ → ℕ → UInt8) : Regular f 1 ↔ f 0 0 ≠ 0 := by
  have hdet : (leading (fieldTable f) 1).det = mk (f 0 0) := det_fin_one _
  constructor
  · intro h hzero
    exact h 1 le_rfl (by rw [hdet, hzero, mk_zero])
  · intro hne j hj
    rcases Nat.le_one_iff_eq_zero_or_eq_one.mp hj with rfl | rfl
    · rw [det_fin_zero]
      exact one_ne_zero
    · rw [hdet]
      exact mt mk_eq_zero.mp hne

private theorem inverts_one (fuel : ℕ) (f : ℕ → ℕ → UInt8) :
    (Regular f 1 ∧ Inverts B (fuel + 1) 1 f) ∨
      (¬ Regular f 1 ∧ recursiveInverseLoop ⟨.scalar, B⟩ (fuel + 1) (tabulate 1 1 f) = .error .inverseOfZero) := by
  have hread : recursiveInverseLoop ⟨.scalar, B⟩ (fuel + 1) (tabulate 1 1 f) = (do
      let inv ← gfInv (f 0 0)
      return some [[inv]]) := rfl
  rw [regular_one_iff, hread]
  by_cases hzero : f 0 0 = 0
  · rw [hzero]
    exact .inr ⟨by simp, rfl⟩
  · obtain ⟨c, hc, hmk⟩ := gfInv_of_ne hzero
    refine .inl ⟨hzero, fun _ _ => c, by rw [hread, hc]; rfl, ?_⟩
    funext r s
    rw [mul_apply, Subsingleton.elim r 0, Subsingleton.elim s 0, Fin.sum_univ_one, one_apply_eq]
    change mk (f 0 0) * mk c = 1
    rw [hmk, mul_inv_cancel₀ (mt mk_eq_zero.mp hzero)]

private theorem recursiveInverseLoop_halves (env : Platform) (fuel : ℕ) (hp : 1 ≤ p) (hq : 1 ≤ q)
    (hmid : (p + q) / 2 = p) (f : ℕ → ℕ → UInt8) :
    recursiveInverseLoop env (fuel + 1) (tabulate (p + q) (p + q) f) = (do
      match ← recursiveInverseLoop env fuel (tabulate p p f) with
      | none => return none
      | some aInv =>
          let caInv ← matMul env (tabulate q p fun r c => f (p + r) c) aInv
          let temp ← matMul env caInv (tabulate p q fun r c => f r (p + c))
          let schur ← xorMatrix q q (tabulate q q fun r c => f (p + r) (p + c)) temp
          match ← recursiveInverseLoop env fuel schur with
          | none => return none
          | some schurInv =>
              return some (← assembleInverse env p q (tabulate p q fun r c => f r (p + c)) aInv caInv schurInv)) := by
  have hlen : ∀ (R C : ℕ) (g : ℕ → ℕ → UInt8), (tabulate R C g).length = R := by simp [tabulate]
  have hfirst : readAt (tabulate q q fun r c => f (p + r) (p + c)) 0 =
      .ok ((List.range q).map fun c => f (p + 0) (p + c)) :=
    readAt_tabulate (by omega)
  have ha : copyBlock (tabulate (p + q) (p + q) f) 0 0 p p = .ok (tabulate p p f) := by
    rw [copyBlock_ok (by omega) (by omega)]
    simp only [Nat.zero_add]
  have hb : copyBlock (tabulate (p + q) (p + q) f) 0 p p q = .ok (tabulate p q fun r c => f r (p + c)) := by
    rw [copyBlock_ok (by omega) le_rfl]
    simp only [Nat.zero_add]
  have hc : copyBlock (tabulate (p + q) (p + q) f) p 0 q p = .ok (tabulate q p fun r c => f (p + r) c) := by
    rw [copyBlock_ok le_rfl (by omega)]
    simp only [Nat.zero_add]
  have hd : copyBlock (tabulate (p + q) (p + q) f) p p q q = .ok (tabulate q q fun r c => f (p + r) (p + c)) :=
    copyBlock_ok le_rfl le_rfl f
  have hstep := recursiveInverseLoop.eq_2 env (tabulate (p + q) (p + q) f) fuel
  simp only [hlen] at hstep
  rw [if_neg (by omega), if_neg (by omega), hmid, Nat.add_sub_cancel_left] at hstep
  simp only [ha, hb, hc, hd, ok_bind, hlen, hfirst, List.length_map, List.length_range] at hstep
  exact hstep

private theorem inverts_or_aborts {fuel n : ℕ} (hn : 1 ≤ n) (hfuel : n ≤ fuel) (f : ℕ → ℕ → UInt8) :
    (Regular f n ∧ Inverts B fuel n f) ∨
      (¬ Regular f n ∧ recursiveInverseLoop ⟨.scalar, B⟩ fuel (tabulate n n f) = .error .inverseOfZero) := by
  induction fuel generalizing n f with
  | zero => omega
  | succ fuel ih =>
      rcases Nat.lt_or_ge n 2 with hone | htwo
      · obtain rfl : n = 1 := by omega
        exact inverts_one fuel f
      · obtain ⟨q, hsplit⟩ := Nat.exists_eq_add_of_le (Nat.div_le_self n 2)
        generalize hmid : n / 2 = p at hsplit
        subst hsplit
        rw [Inverts, recursiveInverseLoop_halves _ fuel (by omega) (by omega) hmid]
        rcases ih (n := p) (by omega) (by omega) f with ⟨hregular, x, hx, hinv⟩ | ⟨hsingular, herror⟩
        · have hadd : Regular f (p + q) ↔ Regular f p ∧ Regular (schurFn f p x) q := by
            rw [Regular, Regular, Regular, fieldTable_schurFn]
            exact regularUpTo_add_iff hinv q
          have hlower : matMul ⟨.scalar, B⟩ (tabulate q p fun r c => f (p + r) c) (tabulate p p x) =
              .ok (tabulate q p (lowerTimes f p x)) := matMul_ok (by omega) _ _
          have htemp : matMul ⟨.scalar, B⟩ (tabulate q p (lowerTimes f p x)) (tabulate p q fun r c => f r (p + c)) =
              .ok (tabulate q q (mulFn .scalar p (lowerTimes f p x) fun r c => f r (p + c))) := matMul_ok (by omega) _ _
          have hschur : xorMatrix q q (tabulate q q fun r c => f (p + r) (p + c))
                (tabulate q q (mulFn .scalar p (lowerTimes f p x) fun r c => f r (p + c))) =
              .ok (tabulate q q (schurFn f p x)) := xorMatrix_ok _ _
          simp only [hx, hlower, htemp, hschur, ok_bind]
          rcases ih (n := q) (by omega) (by omega) (schurFn f p x) with ⟨hregular', y, hy, hinv'⟩ | ⟨hsingular', herror⟩
          · refine .inl ⟨hadd.mpr ⟨hregular, hregular'⟩, assembled f p q x y, ?_, mul_assembled hinv hinv'⟩
            simp only [hy, ok_bind, assembleInverse_ok (show 1 ≤ p by omega) (show 1 ≤ q by omega), pure_eq_ok]
          · refine .inr ⟨fun h => hsingular' (hadd.mp h).2, ?_⟩
            rw [herror, error_bind]
        · refine .inr ⟨fun h => hsingular fun j hj => h j (by omega), ?_⟩
          rw [herror, error_bind]

/-! ## Square matrices -/

structure Square (n : ℕ) (m : Dense) : Prop where
  length_eq : m.length = n
  row_length : ∀ row ∈ m, row.length = n

def entryAt (m : Dense) (r c : ℕ) : UInt8 := (m.getD r []).getD c 0

theorem Square.eq_tabulate {m : Dense} (h : Square n m) : m = tabulate n n (entryAt m) := by
  apply List.ext_getElem
  · simp [tabulate, h.length_eq]
  · intro r hr _
    have hrow := h.row_length m[r] (List.getElem_mem hr)
    apply List.ext_getElem
    · simp [tabulate, hrow]
    · intro c hc _
      simp [tabulate, entryAt, hr, hc]

private theorem square_tabulate (n : ℕ) (f : ℕ → ℕ → UInt8) : Square n (tabulate n n f) where
  length_eq := by simp [tabulate]
  row_length := by simp [tabulate]

private theorem tabulate_eq_of_byteMatrix {f g : ℕ → ℕ → UInt8} (h : byteMatrix n n f = byteMatrix n n g) :
    tabulate n n f = tabulate n n g := by
  apply List.map_congr_left
  intro r hr
  apply List.map_congr_left
  intro c hc
  exact mk_injective (congrFun (congrFun h ⟨r, List.mem_range.mp hr⟩) ⟨c, List.mem_range.mp hc⟩)

private theorem matMul_eq_identity {f g : ℕ → ℕ → UInt8} (hn : 1 ≤ n) (h : byteMatrix n n f * byteMatrix n n g = 1) :
    matMul ⟨.scalar, B⟩ (tabulate n n f) (tabulate n n g) = .ok (identityMatrix n) := by
  rw [matMul_ok hn, identityMatrix_eq]
  apply congrArg Except.ok
  apply tabulate_eq_of_byteMatrix
  have hone : byteMatrix n n (powFn .scalar n f 0) = 1 := by rw [byteMatrix_powFn, pow_zero]
  exact (byteMatrix_mulFn n f g).trans (h.trans hone.symm)

/-- What block-recursive inversion returns is the inverse, on both sides. -/
theorem recursiveInverse_sound {m r : Dense} (hn : 1 ≤ n) (hm : Square n m)
    (h : recursiveInverse ⟨.scalar, B⟩ m = .ok (some r)) :
    Square n r ∧ matMul ⟨.scalar, B⟩ m r = .ok (identityMatrix n) ∧
      matMul ⟨.scalar, B⟩ r m = .ok (identityMatrix n) := by
  have htab := hm.eq_tabulate
  rw [recursiveInverse, hm.length_eq, htab] at h
  rcases inverts_or_aborts (B := B) hn le_rfl (entryAt m) with ⟨-, g, hg, hinv⟩ | ⟨-, herror⟩
  · rw [hg, Except.ok.injEq, Option.some.injEq] at h
    subst h
    rw [htab]
    exact ⟨square_tabulate n g, matMul_eq_identity hn hinv, matMul_eq_identity hn (mul_eq_one_comm.mp hinv)⟩
  · rw [herror] at h
    cases h

theorem recursiveInverse_sound_odd : Square 3 [[88, 149, 162], [205, 88, 232], [176, 55, 88]] ∧
    matMul ⟨.scalar, 4⟩ [[1, 7, 0], [0, 1, 3], [2, 0, 1]] [[88, 149, 162], [205, 88, 232], [176, 55, 88]] =
      .ok (identityMatrix 3) ∧
    matMul ⟨.scalar, 4⟩ [[88, 149, 162], [205, 88, 232], [176, 55, 88]] [[1, 7, 0], [0, 1, 3], [2, 0, 1]] =
      .ok (identityMatrix 3) := by
  have hsquare : Square 3 [[1, 7, 0], [0, 1, 3], [2, 0, 1]] := ⟨rfl, by simp⟩
  exact recursiveInverse_sound (by decide) hsquare (by decide +kernel)

def detOf (n : ℕ) (m : Dense) : GF256 := (byteMatrix n n (entryAt m)).det

/-- The contract of an inversion that may fail: something is returned for a nonsingular matrix and nothing for a
singular one. -/
def InversionDecides (B n : ℕ) (m : Dense) : Prop :=
  ∃ result, recursiveInverse ⟨.scalar, B⟩ m = .ok result ∧ (detOf n m ≠ 0 → result.isSome) ∧
    (detOf n m = 0 → result = none)

/-- Inversion keeps its contract exactly on the matrices none of whose leading squares is singular. -/
theorem recursiveInverse_decides_iff {m : Dense} (hn : 1 ≤ n) (hm : Square n m) :
    InversionDecides B n m ↔ ∀ j ≤ n, detOf j m ≠ 0 := by
  have hloop : recursiveInverse ⟨.scalar, B⟩ m = recursiveInverseLoop ⟨.scalar, B⟩ n (tabulate n n (entryAt m)) := by
    rw [recursiveInverse, hm.length_eq, ← hm.eq_tabulate]
  rw [InversionDecides, hloop]
  rcases inverts_or_aborts (B := B) hn le_rfl (entryAt m) with ⟨hregular, g, hg, -⟩ | ⟨hsingular, herror⟩
  · exact iff_of_true ⟨_, hg, fun _ => rfl, fun hzero => absurd hzero (hregular n le_rfl)⟩ hregular
  · refine iff_of_false ?_ hsingular
    rintro ⟨result, hresult, -⟩
    rw [herror] at hresult
    cases hresult

theorem recursiveInverse_decides_iff_triangular : InversionDecides 4 2 [[1, 7], [0, 1]] := by
  have hsquare : Square 2 [[1, 7], [0, 1]] := ⟨rfl, by simp⟩
  have hregular : ∀ j ≤ 2, detOf j [[1, 7], [0, 1]] ≠ 0 := by
    intro j hj
    interval_cases j
    · simp [detOf]
    · simp [detOf, byteMatrix, entryAt, mk_one]
    · simp [detOf, byteMatrix, entryAt, det_fin_two, mk_one, mk_zero]
  exact (recursiveInverse_decides_iff (by decide) hsquare).mpr hregular

/-- A permutation matrix is nonsingular but starts with a zero, and a zero matrix is singular: both abort. -/
theorem recursiveInverse_aborts : recursiveInverse ⟨.scalar, 4⟩ [[0, 1], [1, 0]] = .error .inverseOfZero ∧
    detOf 2 [[0, 1], [1, 0]] ≠ 0 ∧ ¬ InversionDecides 4 2 [[0, 1], [1, 0]] ∧
    recursiveInverse ⟨.scalar, 4⟩ [[0]] = .error .inverseOfZero ∧ detOf 1 [[0]] = 0 ∧ ¬ InversionDecides 4 1 [[0]] := by
  have hswap : recursiveInverse ⟨.scalar, 4⟩ [[0, 1], [1, 0]] = .error .inverseOfZero := by decide +kernel
  have hzero : recursiveInverse ⟨.scalar, 4⟩ [[0]] = .error .inverseOfZero := by decide +kernel
  have habort : ∀ {n : ℕ} {m : Dense}, recursiveInverse ⟨.scalar, 4⟩ m = .error .inverseOfZero →
      ¬ InversionDecides 4 n m := by
    rintro n m herror ⟨result, hresult, -⟩
    rw [herror] at hresult
    cases hresult
  refine ⟨hswap, ?_, habort hswap, hzero, ?_, habort hzero⟩
  · simp [detOf, byteMatrix, entryAt, det_fin_two, mk_one, mk_zero]
  · simp [detOf, byteMatrix, entryAt, mk_zero]

end QuicFuscate.Fec
