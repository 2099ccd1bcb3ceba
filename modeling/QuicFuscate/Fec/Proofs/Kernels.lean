import QuicFuscate.Fec.Proofs.GaloisField
import Mathlib.Data.List.Sublists

/-!
# The carry-less kernels against the tables

Table multiplication is the carry-less product reduced modulo `0x11D`.  The kernels fold the
product instead of reducing it.  Both maps are additive in the product, so the products on which
they agree form a space of words; a basis of that space is given below.
-/

namespace QuicFuscate.Fec

open Framework GF256

/-! ## Additive maps on words -/

def clearBit (p : UInt16) (e : ℕ × UInt16) : UInt16 :=
  if p.toNat.testBit e.1 then p ^^^ e.2 else p

private theorem clearBit_xor (p q : UInt16) (e : ℕ × UInt16) :
    clearBit (p ^^^ q) e = clearBit p e ^^^ clearBit q e := by
  simp only [clearBit, UInt16.toNat_xor, Nat.testBit_xor]
  cases p.toNat.testBit e.1 <;> cases q.toNat.testBit e.1
  · rfl
  · exact UInt16.xor_assoc p q e.2
  · exact (UInt16.xor_assoc p q e.2).trans (by rw [UInt16.xor_comm q e.2, ← UInt16.xor_assoc]; rfl)
  · have hcancel : (p ^^^ e.2) ^^^ (q ^^^ e.2) = p ^^^ q := by
      rw [UInt16.xor_comm q, UInt16.xor_assoc, ← UInt16.xor_assoc e.2, UInt16.xor_self,
        UInt16.zero_xor]
    exact hcancel.symm

private theorem foldl_clearBit_xor (es : List (ℕ × UInt16)) (p q : UInt16) :
    es.foldl clearBit (p ^^^ q) = es.foldl clearBit p ^^^ es.foldl clearBit q := by
  induction es generalizing p q with
  | nil => rfl
  | cons e es ih => rw [List.foldl_cons, clearBit_xor, ih]; rfl

/-- Multiples of the polynomial by which the reduction clears the high bits. -/
def reductionWords : List (ℕ × UInt16) :=
  [(14, 0x4740), (13, 0x23A0), (12, 0x11D0), (11, 0x08E8), (10, 0x0474), (9, 0x023A), (8, 0x011D)]

/-- The remainder of a carry-less product modulo `0x11D`. -/
def reduceProduct (p : UInt16) : UInt8 := (reductionWords.foldl clearBit p).toUInt8

private theorem reduceProduct_xor (p q : UInt16) :
    reduceProduct (p ^^^ q) = reduceProduct p ^^^ reduceProduct q := by
  simp [reduceProduct, foldl_clearBit_xor]

private theorem foldProduct_xor (p q : UInt16) :
    foldProduct (p ^^^ q) = foldProduct p ^^^ foldProduct q := by
  have hstep : ∀ (s p q : UInt16), (p ^^^ q) ^^^ ((p ^^^ q) >>> s) =
      (p ^^^ (p >>> s)) ^^^ (q ^^^ (q >>> s)) := by
    intro s p q
    rw [UInt16.shiftRight_xor, UInt16.xor_assoc, UInt16.xor_assoc, ← UInt16.xor_assoc q,
      UInt16.xor_comm q, UInt16.xor_assoc]
  have hmask : ∀ t : UInt16, (t &&& 0xFF).toUInt8 = t.toUInt8 := by
    intro t
    apply UInt8.toNat_inj.mp
    rw [UInt16.toNat_toUInt8, UInt16.toNat_toUInt8, UInt16.toNat_and]
    exact congrArg (· % 2 ^ 8) (Nat.and_two_pow_sub_one_eq_mod t.toNat 8) |>.trans (Nat.mod_mod _ _)
  simp only [foldProduct, hmask, hstep, UInt16.toUInt8_xor]

/-! ## Table multiplication is reduction -/

private theorem byte_eq_sum_bits : ∀ b < 256, UInt8.ofNat b = (List.range 8).foldl
    (fun acc i => if b.testBit i then acc ^^^ UInt8.ofNat (power i) else acc) 0 := by
  decide +kernel

private theorem eq_of_eq_on_powers {f g : UInt8 → UInt8}
    (hf : ∀ a b, f (a ^^^ b) = f a ^^^ f b) (hg : ∀ a b, g (a ^^^ b) = g a ^^^ g b)
    (h : ∀ i < 8, f (UInt8.ofNat (power i)) = g (UInt8.ofNat (power i))) (a : UInt8) :
    f a = g a := by
  have hf0 : f 0 = 0 := by simpa using hf 0 0
  have hg0 : g 0 = 0 := by simpa using hg 0 0
  have hsum : ∀ n ≤ 8, f ((List.range n).foldl (fun acc i =>
        if a.toNat.testBit i then acc ^^^ UInt8.ofNat (power i) else acc) 0) =
      g ((List.range n).foldl (fun acc i =>
        if a.toNat.testBit i then acc ^^^ UInt8.ofNat (power i) else acc) 0) := by
    intro n
    induction n with
    | zero => intro _; exact hf0.trans hg0.symm
    | succ n ih =>
        intro hn
        rw [List.range_succ, List.foldl_append]
        simp only [List.foldl_cons, List.foldl_nil]
        split
        · rw [hf, hg, ih (by omega), h n (by omega)]
        · exact ih (by omega)
  have hbits := byte_eq_sum_bits a.toNat a.toNat_lt
  rw [UInt8.ofNat_toNat] at hbits
  rw [hbits]
  exact hsum 8 le_rfl

private theorem reduce_shift_power : ∀ i < 8, ∀ j < 8,
    reduceProduct ((UInt8.ofNat (power j)).toUInt16 <<< UInt16.ofNat i) =
      (shift^[i] (mk (UInt8.ofNat (power j)))).byte := by
  decide +kernel

private theorem reduce_shift (i : ℕ) (hi : i < 8) (a : UInt8) :
    reduceProduct (a.toUInt16 <<< UInt16.ofNat i) = (shift^[i] (mk a)).byte := by
  apply eq_of_eq_on_powers (f := fun a => reduceProduct (a.toUInt16 <<< UInt16.ofNat i))
    (g := fun a => (shift^[i] (mk a)).byte)
  · intro a b
    rw [UInt8.toUInt16_xor, UInt16.shiftLeft_xor, reduceProduct_xor]
  · intro a b
    rw [mk_xor, iterate_map_add]
    rfl
  · exact reduce_shift_power i hi

private theorem mk_mul_power (i : ℕ) (a : UInt8) :
    mk a * mk (UInt8.ofNat (power i)) = shift^[i] (mk a) := by
  by_cases ha : a = 0
  · rw [ha, mk_zero, zero_mul]
    exact (iterate_map_zero shift i).symm
  rw [mul_comm, ← shift_iterate]
  change orbit.mul (orbit.shift^[i] orbit.unit) (mk a) = _
  rw [orbit.mul_of_ne (orbit.iterate_unit_ne_zero i),
    orbit.iterate_congr (orbit.iterate_log _ (orbit.iterate_unit_ne_zero i))]
  rfl

private theorem foldl_bits_mul (a : UInt8) (b : ℕ) (n : ℕ) (hn : n ≤ 8) :
    mk a * mk ((List.range n).foldl
        (fun acc i => if b.testBit i then acc ^^^ UInt8.ofNat (power i) else acc) 0) =
      mk (reduceProduct ((List.range n).foldl
        (fun acc i => if b.testBit i then acc ^^^ (a.toUInt16 <<< UInt16.ofNat i) else acc) 0)) := by
  induction n with
  | zero =>
      simp only [List.range_zero, List.foldl_nil]
      rw [mk_zero, mul_zero]
      decide +kernel
  | succ n ih =>
      rw [List.range_succ, List.foldl_append, List.foldl_append]
      simp only [List.foldl_cons, List.foldl_nil]
      split
      · rw [mk_xor, mul_add, ih (by omega), reduceProduct_xor, mk_xor, mk_mul_power,
          reduce_shift n (by omega)]
      · exact ih (by omega)

private theorem gfMulTable_eq_reduceProduct (a b : UInt8) :
    gfMulTable a b = reduceProduct (clmul a b) := by
  apply mk_injective
  rw [mk_gfMulTable]
  have hb := byte_eq_sum_bits b.toNat b.toNat_lt
  rw [UInt8.ofNat_toNat] at hb
  conv_lhs => rw [hb]
  exact foldl_bits_mul a b.toNat 8 le_rfl

/-! ## Where the kernels agree -/

/-- A basis of the products on which folding and reduction agree, with leading bits. -/
def agreementBasis : List (ℕ × UInt16) :=
  [(14, 0x4112), (13, 0x2088), (12, 0x1056), (11, 0x0838), (10, 0x05BA), (9, 0x0368), (0, 0x0001)]

/-- The product is an XOR of words of the basis. -/
def Agreeing (p : UInt16) : Prop :=
  ∃ es ∈ agreementBasis.sublists, p = es.foldr (fun e acc => e.2 ^^^ acc) 0

instance (p : UInt16) : Decidable (Agreeing p) :=
  inferInstanceAs (Decidable (∃ es ∈ agreementBasis.sublists,
    p = es.foldr (fun e acc => e.2 ^^^ acc) 0))

private def discrepancy (p : UInt16) : UInt8 := foldProduct p ^^^ reduceProduct p

private theorem discrepancy_xor (p q : UInt16) :
    discrepancy (p ^^^ q) = discrepancy p ^^^ discrepancy q := by
  simp only [discrepancy, foldProduct_xor, reduceProduct_xor]
  rw [UInt8.xor_assoc, UInt8.xor_assoc, ← UInt8.xor_assoc (foldProduct q),
    UInt8.xor_comm (foldProduct q), UInt8.xor_assoc]

private theorem discrepancy_basis : ∀ e ∈ agreementBasis, discrepancy e.2 = 0 := by
  decide +kernel

private theorem discrepancy_low : ∀ p < 512, p % 2 = 0 → discrepancy (UInt16.ofNat p) = 0 →
    p = 0 := by
  decide +kernel

private theorem clearBit_lt {p w : UInt16} {b : ℕ} (hp : p.toNat < 2 ^ (b + 1))
    (hw : w.toNat < 2 ^ (b + 1)) (hbit : w.toNat.testBit b = true) :
    (clearBit p (b, w)).toNat < 2 ^ b := by
  apply Nat.lt_pow_two_of_testBit
  intro i hi
  have hhigh : ∀ q : UInt16, q.toNat < 2 ^ (b + 1) → b < i → q.toNat.testBit i = false := by
    intro q hq hbi
    exact Nat.testBit_lt_two_pow (hq.trans_le (Nat.pow_le_pow_right (by decide) hbi))
  unfold clearBit
  rcases Nat.lt_or_eq_of_le hi with hlt | rfl
  · split
    · rw [UInt16.toNat_xor, Nat.testBit_xor, hhigh p hp hlt, hhigh w hw hlt]
      rfl
    · exact hhigh p hp hlt
  · split
    · rename_i h
      rw [UInt16.toNat_xor, Nat.testBit_xor, h, hbit]
      rfl
    · rename_i h
      exact Bool.not_eq_true _ ▸ h

private theorem exists_sublist_clearBit (es : List (ℕ × UInt16)) (p : UInt16) :
    ∃ fs ∈ es.sublists, p = fs.foldr (fun e acc => e.2 ^^^ acc) 0 ^^^ es.foldl clearBit p := by
  induction es generalizing p with
  | nil => exact ⟨[], by simp, by simp⟩
  | cons e es ih =>
      obtain ⟨fs, hfs, hp⟩ := ih (clearBit p e)
      rw [List.mem_sublists] at hfs
      rw [List.foldl_cons]
      by_cases hbit : p.toNat.testBit e.1
      · refine ⟨e :: fs, List.mem_sublists.mpr (hfs.cons_cons e), ?_⟩
        rw [List.foldr_cons, UInt16.xor_assoc, ← hp, clearBit, if_pos hbit, UInt16.xor_comm p,
          ← UInt16.xor_assoc, UInt16.xor_self, UInt16.zero_xor]
      · refine ⟨fs, List.mem_sublists.mpr (hfs.cons e), ?_⟩
        rw [← hp, clearBit, if_neg hbit]

private theorem clearBit_zero_even : ∀ p < 512, (clearBit (UInt16.ofNat p) (0, 1)).toNat < 512 ∧
    (clearBit (UInt16.ofNat p) (0, 1)).toNat % 2 = 0 := by
  decide +kernel

private theorem discrepancy_xor_sublist {es : List (ℕ × UInt16)} (h : es ∈ agreementBasis.sublists)
    (p : UInt16) : discrepancy (es.foldr (fun e acc => e.2 ^^^ acc) 0 ^^^ p) = discrepancy p := by
  have hmem : ∀ e ∈ es, discrepancy e.2 = 0 :=
    fun e he => discrepancy_basis e ((List.mem_sublists.mp h).subset he)
  clear h
  induction es with
  | nil => simp
  | cons e es ih =>
      rw [List.foldr_cons, UInt16.xor_assoc, discrepancy_xor, hmem e (by simp), UInt8.zero_xor,
        ih fun e he => hmem e (by simp [he])]

/-- Folding a product of two bytes gives its remainder exactly on the agreement space. -/
private theorem foldProduct_eq_reduceProduct_iff {p : UInt16} (hp : p.toNat < 2 ^ 15) :
    foldProduct p = reduceProduct p ↔ Agreeing p := by
  have hzero : foldProduct p = reduceProduct p ↔ discrepancy p = 0 := UInt8.xor_eq_zero_iff.symm
  rw [hzero]
  constructor
  · intro hd
    obtain ⟨es, hes, hsum⟩ := exists_sublist_clearBit agreementBasis p
    refine ⟨es, hes, ?_⟩
    have h14 := clearBit_lt (w := 0x4112) hp (by decide) (by decide)
    have h13 := clearBit_lt (w := 0x2088) h14 (by decide) (by decide)
    have h12 := clearBit_lt (w := 0x1056) h13 (by decide) (by decide)
    have h11 := clearBit_lt (w := 0x0838) h12 (by decide) (by decide)
    have h10 := clearBit_lt (w := 0x05BA) h11 (by decide) (by decide)
    have h9 := clearBit_lt (w := 0x0368) h10 (by decide) (by decide)
    have heven := clearBit_zero_even _ h9
    rw [UInt16.ofNat_toNat] at heven
    have hrest : agreementBasis.foldl clearBit p = 0 := by
      have hd' : discrepancy (agreementBasis.foldl clearBit p) = 0 := by
        rw [← discrepancy_xor_sublist hes, ← hsum, hd]
      apply UInt16.toNat_inj.mp
      apply discrepancy_low _ heven.1 heven.2
      rw [UInt16.ofNat_toNat]
      exact hd'
    rw [hrest, UInt16.xor_zero] at hsum
    exact hsum
  · rintro ⟨es, hes, rfl⟩
    have h := discrepancy_xor_sublist hes 0
    rw [UInt16.xor_zero] at h
    rw [h]
    decide +kernel

private theorem clmul_lt (a b : UInt8) : (clmul a b).toNat < 2 ^ 15 := by
  have hfold : ∀ n ≤ 8, ((List.range n).foldl (fun acc i =>
      if b.toNat.testBit i then acc ^^^ (a.toUInt16 <<< UInt16.ofNat i) else acc)
        (0 : UInt16)).toNat < 2 ^ 15 := by
    intro n
    induction n with
    | zero => intro _; simp
    | succ n ih =>
        intro hn
        rw [List.range_succ, List.foldl_append]
        simp only [List.foldl_cons, List.foldl_nil]
        split
        · rw [UInt16.toNat_xor]
          apply Nat.xor_lt_two_pow (ih (by omega))
          have ha := a.toNat_lt
          have hpow : 2 ^ n ≤ 2 ^ 7 := Nat.pow_le_pow_right (by decide) (by omega)
          rw [UInt16.toNat_shiftLeft, UInt8.toNat_toUInt16, UInt16.toNat_ofNat_of_lt' (by
            exact lt_of_lt_of_le hn (by decide)), Nat.mod_eq_of_lt (by omega : n < 16),
            Nat.shiftLeft_eq]
          have hmul : a.toNat * 2 ^ n ≤ 255 * 2 ^ 7 := Nat.mul_le_mul (by omega) hpow
          exact (Nat.mod_le _ _).trans_lt (by omega)
        · exact ih (by omega)
  exact hfold 8 le_rfl

/-! ## Slices -/

private theorem mulLoop_ok (kernel : UInt8 → UInt8 → UInt8) {a b out : List UInt8}
    (hb : a.length = b.length) (hout : out.length = a.length) :
    loopTo a.length out (fun i out => do
      writeAt out i (kernel (← readAt a i) (← readAt b i))) = .ok (List.zipWith kernel a b) := by
  apply loopTo_eq (fun i => (List.zipWith kernel a b).take i ++ out.drop i)
  · simp
  · intro i hi
    have hz : i < (List.zipWith kernel a b).length := by simp; omega
    have hlen : i < ((List.zipWith kernel a b).take i ++ out.drop i).length := by simp; omega
    have htake : ((List.zipWith kernel a b).take i).length = i := by simp; omega
    rw [readAt_of_lt hi, readAt_of_lt (hb ▸ hi), ok_bind, ok_bind, writeAt_of_lt hlen,
      List.set_append_right _ _ htake.le, htake, Nat.sub_self, List.drop_eq_getElem_cons (by omega),
      List.set_cons_zero, List.take_succ_eq_append_getElem hz, List.getElem_zipWith, List.append_assoc]
    rfl
  · rw [List.take_of_length_le (by simp), List.drop_of_length_le (by omega), List.append_nil]

private theorem mulSliceKernel_ok (kernel : UInt8 → UInt8 → UInt8) {a b out : List UInt8}
    (hb : a.length = b.length) (hout : out.length = a.length) :
    mulSliceKernel kernel a b out = .ok (List.zipWith kernel a b) := by
  rw [mulSliceKernel, unrolledTo_eq, mulLoop_ok kernel hb hout]

private theorem gfMulSlice_ok (policy : SimdPolicy) {a b out : List UInt8} (hb : a.length = b.length)
    (hout : out.length = a.length) :
    gfMulSlice policy a b out = .ok (List.zipWith (gfMul policy) a b) := by
  unfold gfMulSlice
  rw [if_pos ⟨hb, hout⟩]
  cases policy with
  | avx512 => exact mulSliceKernel_ok _ hb hout
  | avx2 => exact mulSliceKernel_ok _ hb hout
  | sse2 => exact mulSliceKernel_ok _ hb hout
  | neon => exact mulSliceKernel_ok _ hb hout
  | pclmulqdq => exact mulLoop_ok _ hb hout
  | scalar => exact mulLoop_ok _ hb hout

private theorem gfMul_eq_table_iff {policy : SimdPolicy}
    (hpolicy : policy ∈ [SimdPolicy.avx512, .avx2, .sse2, .neon]) (a b : UInt8) :
    gfMul policy a b = gfMulTable a b ↔ Agreeing (clmul a b) := by
  have hfold : gfMul policy a b = foldProduct (clmul a b) := by
    simp only [List.mem_cons, List.not_mem_nil, or_false] at hpolicy
    rcases hpolicy with rfl | rfl | rfl | rfl <;> rfl
  rw [hfold, gfMulTable_eq_reduceProduct, foldProduct_eq_reduceProduct_iff (clmul_lt a b)]

private theorem zipWith_eq_zipWith_iff {f g : UInt8 → UInt8 → UInt8} (a b : List UInt8) :
    List.zipWith f a b = List.zipWith g a b ↔ ∀ p ∈ a.zip b, f p.1 p.2 = g p.1 p.2 := by
  induction a generalizing b with
  | nil => simp
  | cons x a ih =>
      cases b with
      | nil => simp
      | cons y b => simp [ih]

/-- A carry-less policy computes the scalar products of two slices exactly when every carry-less
product lies in the agreement space. -/
theorem gfMulSlice_eq_scalar_iff {policy : SimdPolicy}
    (hpolicy : policy ∈ [SimdPolicy.avx512, .avx2, .sse2, .neon]) (a b out : List UInt8)
    (hb : a.length = b.length) (hout : out.length = a.length) :
    (gfMulSlice policy a b out = gfMulSlice .scalar a b out ∧
      gfMulSlice policy a b out = .ok (List.zipWith gfMulTable a b) ∧
      ∀ p ∈ a.zip b, gfMul policy p.1 p.2 = gfMulTable p.1 p.2) ↔
    ∀ p ∈ a.zip b, Agreeing (clmul p.1 p.2) := by
  have hbytes : (∀ p ∈ a.zip b, gfMul policy p.1 p.2 = gfMulTable p.1 p.2) ↔
      ∀ p ∈ a.zip b, Agreeing (clmul p.1 p.2) :=
    forall₂_congr fun p _ => gfMul_eq_table_iff hpolicy p.1 p.2
  have hscalar : gfMulSlice .scalar a b out = .ok (List.zipWith gfMulTable a b) :=
    gfMulSlice_ok .scalar hb hout
  rw [hscalar, gfMulSlice_ok policy hb hout, ← hbytes, Except.ok.injEq,
    zipWith_eq_zipWith_iff]
  exact ⟨fun h => h.1, fun h => ⟨h, h, h⟩⟩

/-- Beside the unit, two pairs whose carry-less products `0x368` and `0x5bb` are reduced. -/
theorem gfMulSlice_eq_scalar_iff_reduced :
    (gfMulSlice .avx2 [1, 4, 9] [1, 218, 163] [0, 0, 0] = gfMulSlice .scalar [1, 4, 9] [1, 218, 163] [0, 0, 0] ∧
      gfMulSlice .avx2 [1, 4, 9] [1, 218, 163] [0, 0, 0] = .ok (List.zipWith gfMulTable [1, 4, 9] [1, 218, 163]) ∧
      ∀ p ∈ List.zip [1, 4, 9] [1, 218, 163], gfMul .avx2 p.1 p.2 = gfMulTable p.1 p.2) :=
  (gfMulSlice_eq_scalar_iff (by decide) [1, 4, 9] [1, 218, 163] [0, 0, 0] (by decide) (by decide)).mpr
    (List.forall_mem_cons.mpr ⟨by decide +kernel,
      List.forall_mem_cons.mpr ⟨by decide +kernel, List.forall_mem_singleton.mpr (by decide +kernel)⟩⟩)

/-- `2 * 1` under the AVX2 policy is `3`. -/
theorem gfMulSlice_avx2_two_one :
    ¬ (gfMulSlice .avx2 [2] [1] [0] = gfMulSlice .scalar [2] [1] [0]) ∧
      gfMulSlice .avx2 [2] [1] [0] = .ok [3] ∧ gfMulSlice .scalar [2] [1] [0] = .ok [2] := by
  decide +kernel

end QuicFuscate.Fec
