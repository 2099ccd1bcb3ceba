import QuicFuscate.Fec.Decoder16
import QuicFuscate.Fec.Proofs.Encoder16
import QuicFuscate.Framework.Elimination

/-!
# Elimination in the GF(2^16) decoder

The dense column loop is followed on tabulated rows.  Over exact field arithmetic it makes the
pivoting steps of the abstract elimination, with the words of the payload blocks as right-hand
sides.
-/

namespace QuicFuscate.Fec

open Framework

/-- Words with these operations are a field: XOR is its addition, and the operations are its
multiplication and inversion. -/
structure ExactField (F : Gf16Arith) (K : Type) [Field K] where
  toField : UInt16 ≃ K
  map_xor : ∀ a b, toField (a ^^^ b) = toField a + toField b
  map_mul : ∀ a b, toField (F.mul a b) = toField a * toField b
  map_inv : ∀ a, a ≠ 0 → toField (F.inv a) = (toField a)⁻¹

namespace ExactField

variable {F : Gf16Arith} {K : Type} [Field K] (X : ExactField F K)

include X

theorem map_zero : X.toField 0 = 0 := by
  have h := X.map_xor 0 0
  rw [UInt16.xor_self] at h
  exact left_eq_add.mp h

private theorem map_eq_zero {a : UInt16} : X.toField a = 0 ↔ a = 0 := by
  rw [← X.map_zero, X.toField.injective.eq_iff]

theorem sub_eq_add (a b : K) : a - b = a + b := by
  obtain ⟨v, rfl⟩ := X.toField.surjective b
  rw [sub_eq_iff_eq_add, add_assoc, ← X.map_xor, UInt16.xor_self, X.map_zero, add_zero]

theorem zero_mul (b : UInt16) : F.mul 0 b = 0 := by
  rw [← X.map_eq_zero, X.map_mul, X.map_zero, MulZeroClass.zero_mul]

theorem map_foldl (f : ℕ → UInt16) (n : ℕ) :
    X.toField ((List.range n).foldl (fun acc c => f c ^^^ acc) 0) =
      ∑ c : Fin n, X.toField (f c) := by
  induction n with
  | zero => simpa using X.map_zero
  | succ n ih =>
      rw [List.range_succ, List.foldl_append, List.foldl_cons, List.foldl_nil, X.map_xor, ih,
        Fin.sum_univ_castSucc, add_comm]
      rfl

def wordVec (w : ℕ) (p : List UInt8) (q : Fin w) : K := X.toField (wordAt p q)

end ExactField

namespace Decoder16

/-! ## Payloads keep their lengths -/

def payloadLengths (payloads : List (Option (List UInt8))) : List (Option ℕ) :=
  payloads.map (Option.map List.length)

section PayloadLengths

variable {F : Gf16Arith} {k i r : ℕ} {s s' : Rows}

private theorem writeWord_length {xs ys : List UInt8} {j : ℕ} {v : UInt16} (h : writeWord xs j v = .ok ys) :
    ys.length = xs.length := by
  rw [writeWord, bind_eq_ok] at h
  obtain ⟨zs, hzs, h⟩ := h
  rw [writeAt_length h, writeAt_length hzs]

private theorem scalePayload_length {inv : UInt16} {p q : List UInt8} (h : scalePayload F inv p = .ok q) :
    q.length = p.length := by
  apply loopTo_keeps (fun u => u.length = p.length) h rfl
  intro j u u' hu hstep
  rw [bind_eq_ok] at hstep
  obtain ⟨v, -, hstep⟩ := hstep
  exact (writeWord_length hstep).trans hu

private theorem addScaledPayload_length {factor : UInt16} {src tgt q : List UInt8}
    (h : addScaledPayload F factor src tgt = .ok q) : q.length = tgt.length := by
  apply loopTo_keeps (fun u => u.length = tgt.length) h rfl
  intro j u u' hu hstep
  simp only [bind_eq_ok] at hstep
  obtain ⟨x, -, y, -, hstep⟩ := hstep
  exact (writeWord_length hstep).trans hu

private theorem payloadLengths_writeAt {xs ys : List (Option (List UInt8))} {p q : List UInt8}
    (hread : readAt xs i = .ok (some p)) (hlen : q.length = p.length) (h : writeAt xs i (some q) = .ok ys) :
    payloadLengths ys = payloadLengths xs := by
  obtain ⟨hi, hp⟩ := List.getElem?_eq_some_iff.mp (readAt_eq_ok.mp hread)
  rw [writeAt_of_lt hi, Except.ok.injEq] at h
  have hlt : i < (payloadLengths xs).length := by simpa [payloadLengths] using hi
  have hsame : Option.map List.length (some q) = (payloadLengths xs)[i] := by simp [payloadLengths, hp, hlen]
  rw [← h, payloadLengths, List.map_set, hsame]
  exact List.set_getElem_self _

private theorem normalizeRow_lengths (h : normalizeRow F s i = .ok s') : payloadLengths s'.2 = payloadLengths s.2 := by
  simp only [normalizeRow, bind_eq_ok] at h
  obtain ⟨pivot, -, inv, -, row, -, matrix, -, payload, hpayload, h⟩ := h
  cases payload with
  | none =>
      cases h
      rfl
  | some p =>
      simp only [bind_eq_ok] at h
      obtain ⟨q, hq, payloads, hwrite, h⟩ := h
      cases h
      exact payloadLengths_writeAt hpayload (scalePayload_length hq) hwrite

private theorem subtractRow_lengths {factor : UInt16} (h : subtractRow F k s i r factor = .ok s') :
    payloadLengths s'.2 = payloadLengths s.2 := by
  simp only [subtractRow, bind_eq_ok] at h
  obtain ⟨before, -, row, -, matrix, -, src, -, tgt, htgt, h⟩ := h
  split at h
  · simp only [bind_eq_ok] at h
    obtain ⟨q, hq, payloads, hwrite, h⟩ := h
    cases h
    exact payloadLengths_writeAt htgt (addScaledPayload_length hq) hwrite
  · cases h
    rfl

private theorem clearColumn_lengths (h : clearColumn F k s i = .ok s') : payloadLengths s'.2 = payloadLengths s.2 := by
  apply loopTo_keeps (fun u : Rows => payloadLengths u.2 = payloadLengths s.2) h rfl
  intro t u u' hu hstep
  rw [bind_eq_ok] at hstep
  obtain ⟨factor, -, hstep⟩ := hstep
  split at hstep
  · exact (subtractRow_lengths hstep).trans hu
  · cases hstep
    exact hu

private theorem eliminateColumn_lengths (h : eliminateColumn F k s i = .ok (some s')) :
    (payloadLengths s'.2).Perm (payloadLengths s.2) := by
  rw [eliminateColumn, bind_eq_ok] at h
  obtain ⟨pivot, -, h⟩ := h
  cases pivot with
  | none => cases h
  | some pivot =>
      simp only [bind_eq_ok] at h
      obtain ⟨matrix, -, payloads, hswap, t, hnormal, u, hclear, h⟩ := h
      cases h
      rw [clearColumn_lengths hclear, normalizeRow_lengths hnormal]
      exact (swapAt_perm hswap).map _

private theorem eliminateColumns_lengths {count : ℕ} {solved : Bool}
    (h : eliminateColumns F k count i s = .ok (solved, s')) :
    (payloadLengths s'.2).Perm (payloadLengths s.2) := by
  induction count generalizing i s with
  | zero =>
      cases h
      exact .refl _
  | succ count ih =>
      rw [eliminateColumns, bind_eq_ok] at h
      obtain ⟨next, hnext, h⟩ := h
      cases next with
      | none =>
          cases h
          exact .refl _
      | some t => exact (ih h).trans (eliminateColumn_lengths hnext)

theorem tryDecode_lengths {d d' : Decoder16} {decoded : Bool} (h : d.tryDecode F = .ok (decoded, d')) :
    (payloadLengths d'.payloads).Perm (payloadLengths d.payloads) := by
  rw [tryDecode] at h
  split at h
  · cases h
    exact .refl _
  · rw [bind_eq_ok] at h
    obtain ⟨⟨solved, t⟩, helim, h⟩ := h
    have hlengths := eliminateColumns_lengths helim
    dsimp only at h
    split at h <;> cases h <;> exact hlengths

theorem addPacket_lengths {d d' : Decoder16} {p : Packet} {result : Except String Bool}
    (h : d.addPacket F p = .ok (result, d')) :
    d'.payloads = d.payloads ∨ (payloadLengths d'.payloads).Perm
      (payloadLengths (d.payloads ++ [if p.isSystematic then none else p.data])) := by
  rw [addPacket] at h
  split at h
  · cases h
    exact .inl rfl
  split at h
  · rename_i hsys
    rw [bind_eq_ok] at h
    obtain ⟨row, -, h⟩ := h
    cases h
    rw [if_pos hsys]
    exact .inr (.refl _)
  · rename_i hsys
    split at h
    · simp only [bind_eq_ok] at h
      obtain ⟨row, -, ⟨decoded, next⟩, hdecode, h⟩ := h
      cases h
      rw [if_neg hsys]
      exact .inr (tryDecode_lengths hdecode)
    · cases h
      exact .inl rfl

end PayloadLengths

/-! ## One column -/

def gridRows (k : ℕ) (a : ℕ → ℕ → UInt16) (b : ℕ → Option (List UInt8)) : Rows :=
  ((List.range k).map fun t => (List.range k).map (a t), (List.range k).map b)

def scaledBlock (F : Gf16Arith) (inv : UInt16) (p : List UInt8) : List UInt8 :=
  mapWords (p.length / 2) (fun _ v => F.mul v inv) p

def combinedBlock (F : Gf16Arith) (factor : UInt16) :
    Option (List UInt8) → Option (List UInt8) → Option (List UInt8)
  | some src, some tgt =>
      some (mapWords (src.length / 2) (fun q v => F.gf16MulAdd factor (wordAt src q) v) tgt)
  | _, tgt => tgt

def pivotCoeffs (F : Gf16Arith) (a : ℕ → ℕ → UInt16) (i p : ℕ) (inv : UInt16) (t c : ℕ) :
    UInt16 :=
  if t = i then F.mul (a p c) inv
  else if a (Equiv.swap i p t) i ≠ 0 then
    a (Equiv.swap i p t) c ^^^ F.mul (a (Equiv.swap i p t) i) (F.mul (a p c) inv)
  else a (Equiv.swap i p t) c

def pivotBlocks (F : Gf16Arith) (a : ℕ → ℕ → UInt16) (b : ℕ → Option (List UInt8)) (i p : ℕ)
    (inv : UInt16) (t : ℕ) : Option (List UInt8) :=
  if t = i then (b p).map (scaledBlock F inv)
  else if a (Equiv.swap i p t) i ≠ 0 then
    combinedBlock F (a (Equiv.swap i p t) i) ((b p).map (scaledBlock F inv)) (b (Equiv.swap i p t))
  else b (Equiv.swap i p t)

variable {F : Gf16Arith} {k i B : ℕ} {a : ℕ → ℕ → UInt16} {b : ℕ → Option (List UInt8)}

def BlocksOk (k B : ℕ) (b : ℕ → Option (List UInt8)) : Prop :=
  ∀ t < k, ∀ p, b t = some p → p.length = B

private theorem gridRows_congr {a' : ℕ → ℕ → UInt16} {b' : ℕ → Option (List UInt8)}
    (ha : ∀ t < k, ∀ c < k, a t c = a' t c) (hb : ∀ t < k, b t = b' t) :
    gridRows k a b = gridRows k a' b' := by
  rw [gridRows, gridRows, Prod.mk.injEq]
  constructor
  · refine List.map_congr_left fun t ht => List.map_congr_left fun c hc => ?_
    exact ha t (List.mem_range.mp ht) c (List.mem_range.mp hc)
  · exact List.map_congr_left fun t ht => hb t (List.mem_range.mp ht)

private theorem entry_gridRows {r c : ℕ} (hr : r < k) (hc : c < k) :
    entry (gridRows k a b).1 r c = .ok (a r c) := by
  rw [entry, gridRows, readAt_range_map hr, ok_bind, readAt_range_map hc]

private theorem scalePayload_ok (F : Gf16Arith) (inv : UInt16) (p : List UInt8) :
    scalePayload F inv p = .ok (scaledBlock F inv p) := by
  apply loopTo_mapWords
  · intro q ys hq hlen
    simp only [readWord_of_lt (by omega : 2 * q + 1 < ys.length),
      writeWord_of_lt (by omega : 2 * q + 1 < ys.length), ok_bind]
  · omega

theorem addScaledPayload_ok (F : Gf16Arith) (factor : UInt16) {src tgt : List UInt8}
    (h : src.length ≤ tgt.length) :
    addScaledPayload F factor src tgt = .ok (mapWords (src.length / 2)
      (fun q v => F.gf16MulAdd factor (wordAt src q) v) tgt) := by
  apply loopTo_mapWords
  · intro q ys hq hlen
    simp only [readWord_of_lt (by omega : 2 * q + 1 < src.length),
      readWord_of_lt (by omega : 2 * q + 1 < ys.length),
      writeWord_of_lt (by omega : 2 * q + 1 < ys.length), ok_bind]
  · omega

private theorem normalizeRow_ok (hi : i < k) (hne : a i i ≠ 0) :
    normalizeRow F (gridRows k a b) i = .ok (gridRows k
      (Function.update a i fun c => F.mul (a i c) (F.inv (a i i)))
      (Function.update b i ((b i).map (scaledBlock F (F.inv (a i i)))))) := by
  rw [normalizeRow, entry_gridRows hi hi, ok_bind, Gf16Arith.gf16Inv, if_neg hne, ok_bind,
    gridRows, readAt_range_map hi, ok_bind, List.map_map, writeAt_range_map hi, ok_bind,
    readAt_range_map hi, ok_bind]
  have hrows : (List.range k).map (Function.update (fun t => (List.range k).map (a t)) i
      ((List.range k).map ((fun val => F.mul val (F.inv (a i i))) ∘ a i))) =
      (List.range k).map fun t => (List.range k).map
        (Function.update a i (fun c => F.mul (a i c) (F.inv (a i i))) t) := by
    apply List.map_congr_left
    intro t _
    by_cases ht : t = i
    · subst ht
      simp [Function.comp_def]
    · simp [ht]
  cases hb : b i with
  | none =>
      have hself : Function.update b i none = b := by rw [← hb, Function.update_eq_self]
      simp only [hrows, pure_eq_ok, Option.map_none, hself]
      rfl
  | some p =>
      simp only [hrows, scalePayload_ok, ok_bind, writeAt_range_map hi, Option.map_some]
      rfl

private theorem subtractRow_ok {r : ℕ} (hi : i < k) (hr : r < k) (hblocks : BlocksOk k B b)
    (factor : UInt16) :
    subtractRow F k (gridRows k a b) i r factor = .ok (gridRows k
      (Function.update a r fun c => a r c ^^^ F.mul factor (a i c))
      (Function.update b r (combinedBlock F factor (b i) (b r)))) := by
  have hrow : loopTo k ((List.range k).map (a r)) (fun c row => do
      let t := F.mul factor (← entry (gridRows k a b).1 i c)
      writeAt row c ((← readAt row c) ^^^ t)) =
      .ok ((List.range k).map fun c => a r c ^^^ F.mul factor (a i c)) := by
    rw [loopTo_map (fun c x => x ^^^ F.mul factor (a i c)) (fun c x ys hc hlen hx => ?_) (by simp)]
    · refine congrArg Except.ok ?_
      apply List.ext_getElem
      · simp
      · intro c h1 h2
        have hc : c < k := by simpa using h2
        simp [hc]
    · rw [entry_gridRows hi hc, ok_bind, readAt_eq_ok.mpr hx, ok_bind,
        writeAt_of_lt (by simpa [hlen] using hc)]
  rw [subtractRow, show readAt (gridRows k a b).1 r = .ok ((List.range k).map (a r)) from
    readAt_range_map hr _, ok_bind, hrow, ok_bind]
  have hrows : writeAt (gridRows k a b).1 r
      ((List.range k).map fun c => a r c ^^^ F.mul factor (a i c)) =
      .ok (gridRows k (Function.update a r fun c => a r c ^^^ F.mul factor (a i c)) b).1 := by
    rw [gridRows, writeAt_range_map hr]
    apply congrArg Except.ok
    apply List.map_congr_left
    intro t _
    by_cases ht : t = r
    · subst ht
      simp
    · simp [ht]
  rw [hrows, ok_bind, show readAt (gridRows k a b).2 i = .ok (b i) from readAt_range_map hi b,
    ok_bind, show readAt (gridRows k a b).2 r = .ok (b r) from readAt_range_map hr b, ok_bind]
  have hkeep : ∀ y, y = b r →
      (Except.ok ((gridRows k (Function.update a r fun c => a r c ^^^ F.mul factor (a i c)) b).1,
        (gridRows k a b).2) : Checked Rows) = .ok (gridRows k
        (Function.update a r fun c => a r c ^^^ F.mul factor (a i c)) (Function.update b r y)) := by
    rintro _ rfl
    rw [Function.update_eq_self]
    rfl
  cases hbi : b i with
  | none => exact hkeep _ rfl
  | some src =>
      cases hbr : b r with
      | none => exact hkeep _ hbr.symm
      | some tgt =>
          have hlen : src.length ≤ tgt.length :=
            ((hblocks i hi src hbi).trans (hblocks r hr tgt hbr).symm).le
          simp only [addScaledPayload_ok F factor hlen, ok_bind]
          rw [show writeAt (gridRows k a b).2 r _ = _ from writeAt_range_map hr b _]
          rfl

private theorem combinedBlock_length {factor : UInt16} {x y : Option (List UInt8)} {p : List UInt8}
    (h : combinedBlock F factor x y = some p) : ∃ q, y = some q ∧ p.length = q.length := by
  unfold combinedBlock at h
  split at h
  · rename_i src tgt
    refine ⟨tgt, rfl, ?_⟩
    rw [← Option.some.inj h, mapWords_length]
  · exact ⟨p, h, rfl⟩

private theorem clearColumn_ok (hi : i < k) (hblocks : BlocksOk k B b) :
    clearColumn F k (gridRows k a b) i = .ok (gridRows k
      (fun t c => if t ≠ i ∧ a t i ≠ 0 then a t c ^^^ F.mul (a t i) (a i c) else a t c)
      (fun t => if t ≠ i ∧ a t i ≠ 0 then combinedBlock F (a t i) (b i) (b t) else b t)) := by
  let done := fun j t => t < j ∧ t ≠ i ∧ a t i ≠ 0
  apply loopTo_eq (fun j => gridRows k
    (fun t c => if done j t then a t c ^^^ F.mul (a t i) (a i c) else a t c)
    (fun t => if done j t then combinedBlock F (a t i) (b i) (b t) else b t))
  · simp [done]
  · intro j hj
    -- Row `j` is still untouched, and so is the pivot row.
    have hji : ¬ done j j := fun h => lt_irrefl j h.1
    have hii : ¬ done j i := fun h => h.2.1 rfl
    have hnext : ∀ t, t ≠ j → (done (j + 1) t ↔ done j t) := by
      intro t ht
      exact and_congr_left fun _ => by omega
    rw [entry_gridRows hj hi, ok_bind, if_neg hji]
    by_cases hwork : j ≠ i ∧ a j i ≠ 0
    · have hdone : done (j + 1) j := ⟨Nat.lt_succ_self j, hwork⟩
      have hok : BlocksOk k B fun t =>
          if done j t then combinedBlock F (a t i) (b i) (b t) else b t := by
        intro t ht p hp
        dsimp only at hp
        split at hp
        · obtain ⟨q, hq, hlen⟩ := combinedBlock_length hp
          exact hlen.trans (hblocks t ht q hq)
        · exact hblocks t ht p hp
      rw [if_pos hwork, subtractRow_ok hi hj hok]
      refine congrArg Except.ok (gridRows_congr ?_ ?_)
      · intro t ht c hc
        by_cases htj : t = j
        · subst htj
          simp [hdone, hji, hii]
        · simp only [Function.update_of_ne htj, hnext t htj]
      · intro t ht
        by_cases htj : t = j
        · subst htj
          simp [hdone, hji, hii]
        · simp only [Function.update_of_ne htj, hnext t htj]
    · have hsame : ∀ t, done (j + 1) t ↔ done j t := by
        intro t
        by_cases htj : t = j
        · subst htj
          exact ⟨fun h => absurd h.2 hwork, fun h => absurd h hji⟩
        · exact hnext t htj
      rw [if_neg hwork]
      simp only [hsame, pure_eq_ok]
  · apply gridRows_congr
    · intro t ht c hc
      simp only [done, ht, true_and]
    · intro t ht
      simp only [done, ht, true_and]

private theorem findPivot_ok (hi : i < k) :
    (∃ p, findPivot (gridRows k a b).1 k i = .ok (some p) ∧ i ≤ p ∧ p < k ∧ a p i ≠ 0 ∧
        ∀ q, i ≤ q → q < p → a q i = 0) ∨
      (findPivot (gridRows k a b).1 k i = .ok none ∧ ∀ q, i ≤ q → q < k → a q i = 0) := by
  rcases findFrom_ok (n := k - i) (r := i) (g := fun r => decide (a r i ≠ 0))
      (f := fun pivot => do return (← entry (gridRows k a b).1 pivot i) ≠ 0) (fun r _ hr => by
        rw [entry_gridRows (by omega) hi]; rfl) with ⟨p, hp, h1, h2, h3, h4⟩ | ⟨hp, h4⟩
  · refine .inl ⟨p, hp, h1, by omega, by simpa using h3, fun q hq hqp => ?_⟩
    simpa using h4 q hq hqp
  · refine .inr ⟨hp, fun q hq hqk => ?_⟩
    simpa using h4 q hq (by omega)

private theorem eliminateColumn_ok (F : Gf16Arith) (hi : i < k) (hblocks : BlocksOk k B b) :
    (∃ p, i ≤ p ∧ p < k ∧ a p i ≠ 0 ∧ (∀ q, i ≤ q → q < p → a q i = 0) ∧
        eliminateColumn F k (gridRows k a b) i = .ok (some (gridRows k
          (pivotCoeffs F a i p (F.inv (a p i))) (pivotBlocks F a b i p (F.inv (a p i)))))) ∨
      (eliminateColumn F k (gridRows k a b) i = .ok none ∧ ∀ q, i ≤ q → q < k → a q i = 0) := by
  rcases findPivot_ok (b := b) hi with ⟨p, hfind, hip, hp, hne, hfirst⟩ | ⟨hfind, hnone⟩
  · refine .inl ⟨p, hip, hp, hne, hfirst, ?_⟩
    have hrows : swapAt (gridRows k a b).1 i p =
        .ok (gridRows k (fun t => a (Equiv.swap i p t)) fun t => b (Equiv.swap i p t)).1 :=
      swapAt_range_map hi hp _
    have hpayloads : swapAt (gridRows k a b).2 i p =
        .ok (gridRows k (fun t => a (Equiv.swap i p t)) fun t => b (Equiv.swap i p t)).2 :=
      swapAt_range_map hi hp b
    have hnorm := normalizeRow_ok (F := F) (a := fun t => a (Equiv.swap i p t))
      (b := fun t => b (Equiv.swap i p t)) hi (by simpa using hne)
    have hok : BlocksOk k B (Function.update (fun t => b (Equiv.swap i p t)) i
        ((b p).map (scaledBlock F (F.inv (a p i))))) := by
      intro t ht q hq
      by_cases hti : t = i
      · subst hti
        rw [Function.update_self] at hq
        obtain ⟨q', hq', rfl⟩ := Option.map_eq_some_iff.mp hq
        simpa [scaledBlock] using hblocks p hp q' hq'
      · rw [Function.update_of_ne hti] at hq
        exact hblocks _ (swap_lt hi hp ht) q hq
    simp only [Equiv.swap_apply_left] at hnorm
    rw [eliminateColumn, hfind, ok_bind]
    simp only [hrows, hpayloads, ok_bind, Prod.mk.eta, hnorm, clearColumn_ok hi hok, pure_eq_ok]
    refine congrArg (Except.ok ∘ some) (gridRows_congr ?_ ?_)
    · intro t ht c hc
      by_cases hti : t = i
      · simp [hti, pivotCoeffs]
      · simp [hti, pivotCoeffs]
    · intro t ht
      by_cases hti : t = i
      · simp [hti, pivotBlocks]
      · simp [hti, pivotBlocks]
  · exact .inr ⟨by rw [eliminateColumn, hfind]; rfl, hnone⟩

/-! ## The abstract system -/

open LinearSystem

variable {K : Type} [Field K] {w : ℕ}

/-- The rows hold the coefficients of the system and, in the first words of their payloads, its
right-hand sides. -/
structure Represents16 (X : ExactField F K) (B : ℕ) (a : ℕ → ℕ → UInt16)
    (b : ℕ → Option (List UInt8)) (s : LinearSystem k K (Fin w → K)) : Prop where
  blocks : BlocksOk k B b
  coeff : ∀ t c : Fin k, X.toField (a t c) = s.coeff t c
  payload : ∀ t : Fin k, (b t).map (X.wordVec w) = s.payload t

variable (X : ExactField F K)

private theorem wordVec_scaled (inv : UInt16) {p : List UInt8} (hw : 2 * w ≤ p.length) :
    X.wordVec w (scaledBlock F inv p) = X.toField inv • X.wordVec w p := by
  funext q
  have hq := q.isLt
  rw [ExactField.wordVec, scaledBlock, wordAt_mapWords _ (by omega), if_pos (by omega), X.map_mul,
    mul_comm]
  rfl

private theorem wordVec_combined (factor : UInt16) {src tgt : List UInt8}
    (hsrc : 2 * w ≤ src.length) (htgt : 2 * w ≤ tgt.length) :
    X.wordVec w (mapWords (src.length / 2)
        (fun q v => F.gf16MulAdd factor (wordAt src q) v) tgt) =
      X.wordVec w tgt - X.toField factor • X.wordVec w src := by
  funext q
  have hq := q.isLt
  rw [ExactField.wordVec, wordAt_mapWords _ (by omega), if_pos (by omega), Gf16Arith.gf16MulAdd,
    X.map_xor, X.map_mul, Pi.sub_apply, X.sub_eq_add, add_comm]
  rfl

theorem BlocksOk.pivot {p : ℕ} (h : BlocksOk k B b) (hi : i < k) (hp : p < k) (inv : UInt16) :
    BlocksOk k B (pivotBlocks F a b i p inv) := by
  intro t ht q hq
  unfold pivotBlocks at hq
  split at hq
  · obtain ⟨q', hq', rfl⟩ := Option.map_eq_some_iff.mp hq
    simpa [scaledBlock] using h p hp q' hq'
  · split at hq
    · obtain ⟨q', hq', hlen⟩ := combinedBlock_length hq
      exact hlen.trans (h _ (swap_lt hi hp ht) q' hq')
    · exact h _ (swap_lt hi hp ht) q hq

private theorem represents16_pivotStep {s : LinearSystem k K (Fin w → K)} (hw : 2 * w ≤ B)
    (h : Represents16 X B a b s) {i p : Fin k} (hne : a p i ≠ 0) :
    Represents16 X B (pivotCoeffs F a i p (F.inv (a p i))) (pivotBlocks F a b i p (F.inv (a p i)))
      (s.pivotStep i p) := by
  have hinv : X.toField (F.inv (a p i)) = (s.coeff p i)⁻¹ := by rw [X.map_inv _ hne, h.coeff]
  have hswap : ∀ t : Fin k, Equiv.swap i.val p.val t.val = (Equiv.swap i p t).val :=
    fun t => Fin.val_injective.swap_apply i p t
  have hpivot : ∀ c : Fin k, X.toField (F.mul (a p c) (F.inv (a p i))) =
      (s.coeff p i)⁻¹ * s.coeff p c := by
    intro c
    rw [X.map_mul, hinv, h.coeff, mul_comm]
  have hpivotPayload : ((b p).map (scaledBlock F (F.inv (a p i)))).map (X.wordVec w) =
      (s.payload p).map fun v => (s.coeff p i)⁻¹ • v := by
    rw [← h.payload p]
    cases hp : b p with
    | none => rfl
    | some q =>
        have hlen := h.blocks p p.isLt q hp
        simp [wordVec_scaled X (F.inv (a p i)) (by omega : 2 * w ≤ q.length), hinv]
  refine ⟨h.blocks.pivot i.isLt p.isLt _, ?_, ?_⟩
  · intro t c
    by_cases hti : t = i
    · simp [pivotCoeffs, LinearSystem.pivotStep, pivotCoeff, hti, hpivot]
    · have hval : t.val ≠ i.val := fun heq => hti (Fin.ext heq)
      simp only [pivotCoeffs, LinearSystem.pivotStep, pivotCoeff, hti, hval, if_false, hswap]
      split
      · rw [X.map_xor, X.map_mul, hpivot, h.coeff, h.coeff, X.sub_eq_add]
      · rename_i hzero
        rw [← h.coeff _ i, not_not.mp hzero, X.map_zero, MulZeroClass.zero_mul, sub_zero, h.coeff]
  · intro t
    by_cases hti : t = i
    · simp only [pivotBlocks, LinearSystem.pivotStep, hti, if_true]
      exact hpivotPayload
    · have hval : t.val ≠ i.val := fun heq => hti (Fin.ext heq)
      simp only [pivotBlocks, LinearSystem.pivotStep, hti, hval, if_false, hswap]
      rw [← hpivotPayload, ← h.payload, ← h.coeff]
      by_cases hzero : a (Equiv.swap i p t) i = 0
      · rw [if_neg (not_not.mpr hzero), hzero, X.map_zero]
        cases b p <;> cases b (Equiv.swap i p t) <;> simp [combine]
      · rw [if_pos hzero]
        cases hp : b p with
        | none => rfl
        | some src =>
            cases ht : b (Equiv.swap i p t) with
            | none => rfl
            | some tgt =>
                have hsrc := h.blocks p p.isLt src hp
                have htgt := h.blocks _ (Equiv.swap i p t).isLt tgt ht
                simp only [Option.map_some, combinedBlock, combine]
                rw [wordVec_combined X _ (by simpa [scaledBlock, hsrc] using hw) (by omega)]

theorem eliminateColumns16_reaches {s₀ s : LinearSystem k K (Fin w → K)} (hw : 2 * w ≤ B)
    {count : ℕ} (hcount : i + count = k) (h : Represents16 X B a b s) (hreach : s₀.Reaches i s) :
    (∃ a' b' t, eliminateColumns F k count i (gridRows k a b) = .ok (true, gridRows k a' b') ∧
        Represents16 X B a' b' t ∧ s₀.Reaches k t) ∨
      s₀.Stuck := by
  induction count generalizing i a b s with
  | zero =>
      obtain rfl : i = k := by omega
      exact .inl ⟨a, b, s, rfl, h, hreach⟩
  | succ count ih =>
      have hi : i < k := by omega
      rcases eliminateColumn_ok F hi h.blocks with ⟨p, hip, hp, hne, hfirst, hstep⟩ | ⟨-, hnone⟩
      · have hpivot : s.IsPivot ⟨i, hi⟩ ⟨p, hp⟩ := by
          refine ⟨hip, ?_, fun t h1 h2 => ?_⟩
          · rw [← h.coeff, Ne, X.map_eq_zero]
            exact hne
          · rw [← h.coeff, X.map_eq_zero]
            exact hfirst t h1 h2
        have h' := represents16_pivotStep X hw h (i := ⟨i, hi⟩) (p := ⟨p, hp⟩) hne
        have hreach' : s₀.Reaches (i + 1) (s.pivotStep ⟨i, hi⟩ ⟨p, hp⟩) :=
          .step ⟨i, hi⟩ ⟨p, hp⟩ hreach hpivot
        rcases ih (by omega) h' hreach' with ⟨a', b', t, hrun, hrest⟩ | hstuck
        · exact .inl ⟨a', b', t, by rw [eliminateColumns, hstep]; exact hrun, hrest⟩
        · exact .inr hstuck
      · refine .inr ⟨⟨i, hi⟩, s, hreach, fun r hr => ?_⟩
        rw [← h.coeff, X.map_eq_zero]
        exact hnone r hr r.isLt

end Decoder16

end QuicFuscate.Fec
