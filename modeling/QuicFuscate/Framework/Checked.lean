import Mathlib.Data.List.GetD
import Mathlib.Data.List.Range
import Mathlib.Logic.Equiv.Basic

/-!
# Checked programs

A program that may abort is an `Except Panic` computation.  Reads, writes and slices of a
buffer are bounds-checked, and counted loops are folds over the visited indices.  The loop
rules `loopTo_ok` and `loopTo_eq` turn a statement about a step into a statement about the whole
loop, so that no proof about a program unfolds a loop.
-/

namespace QuicFuscate.Framework

/-- The ways in which a checked operation aborts. -/
inductive Panic
  | indexOutOfBounds
  | inverseOfZero
  | missingValue
  | assertionFailed
  deriving DecidableEq, Repr

abbrev Checked (α : Type) := Except Panic α

variable {α β σ : Type}

def readAt (xs : List α) (i : ℕ) : Checked α :=
  match xs[i]? with
  | some x => .ok x
  | none => .error .indexOutOfBounds

def writeAt (xs : List α) (i : ℕ) (x : α) : Checked (List α) :=
  if i < xs.length then .ok (xs.set i x) else .error .indexOutOfBounds

/-- The sub-slice `xs[lo..hi]`. -/
def sliceOf (xs : List α) (lo hi : ℕ) : Checked (List α) :=
  if lo ≤ hi ∧ hi ≤ xs.length then .ok ((xs.take hi).drop lo) else .error .indexOutOfBounds

/-- Overwrite the front of `xs` with `ys`, as `xs[..ys.len()].copy_from_slice(ys)` does. -/
def copyFront (xs ys : List α) : Checked (List α) :=
  if ys.length ≤ xs.length then .ok (ys ++ xs.drop ys.length) else .error .indexOutOfBounds

/-- Overwrite `xs[off..off + ys.len()]` with `ys`. -/
def copyAt (xs : List α) (off : ℕ) (ys : List α) : Checked (List α) :=
  if off + ys.length ≤ xs.length then .ok (xs.take off ++ ys ++ xs.drop (off + ys.length))
  else .error .indexOutOfBounds

def insertAt (xs : List α) (i : ℕ) (x : α) : Checked (List α) :=
  if i ≤ xs.length then .ok (xs.take i ++ x :: xs.drop i) else .error .indexOutOfBounds

/-- Remove `xs[lo..hi]`. -/
def drainRange (xs : List α) (lo hi : ℕ) : Checked (List α) :=
  if lo ≤ hi ∧ hi ≤ xs.length then .ok (xs.take lo ++ xs.drop hi) else .error .indexOutOfBounds

/-- Exchange `xs[i]` and `xs[j]`. -/
def swapAt (xs : List α) (i j : ℕ) : Checked (List α) := do
  let x ← readAt xs i
  let y ← readAt xs j
  writeAt (← writeAt xs i y) j x

def checkedSub (a b : ℕ) : Checked ℕ :=
  if b ≤ a then .ok (a - b) else .error .indexOutOfBounds

def expectSome : Option α → Checked α
  | some a => .ok a
  | none => .error .missingValue

@[simp] theorem ok_bind (a : α) (f : α → Checked β) : (Except.ok a >>= f) = f a := rfl

@[simp] theorem error_bind (e : Panic) (f : α → Checked β) :
    ((Except.error e : Checked α) >>= f) = .error e := rfl

@[simp] theorem pure_eq_ok (a : α) : (pure a : Checked α) = .ok a := rfl

theorem bind_eq_ok {ε : Type} {x : Except ε α} {f : α → Except ε β} {b : β} :
    (x >>= f) = .ok b ↔ ∃ a, x = .ok a ∧ f a = .ok b := by
  cases x with
  | ok a =>
      constructor
      · exact fun h => ⟨a, rfl, h⟩
      · rintro ⟨a', ha, h⟩
        cases ha
        exact h
  | error e =>
      constructor
      · intro h
        cases h
      · rintro ⟨a, ha, -⟩
        cases ha

theorem exists_ok_of_any {x : Checked α} {p : α → Bool} (h : x.toOption.any p = true) :
    ∃ a, x = .ok a ∧ p a = true := by
  cases x with
  | ok a => exact ⟨a, rfl, h⟩
  | error e => simp [Except.toOption] at h

theorem readAt_of_lt {xs : List α} {i : ℕ} (h : i < xs.length) : readAt xs i = .ok xs[i] := by
  simp [readAt, h]

theorem readAt_eq_ok {xs : List α} {i : ℕ} {x : α} : readAt xs i = .ok x ↔ xs[i]? = some x := by
  unfold readAt
  cases h : xs[i]? <;> simp

theorem readAt_getD {xs : List α} {i : ℕ} (h : i < xs.length) (d : α) :
    readAt xs i = .ok (xs.getD i d) := by
  rw [readAt_of_lt h, List.getD_eq_getElem _ _ h]

theorem writeAt_of_lt {xs : List α} {i : ℕ} (h : i < xs.length) (x : α) :
    writeAt xs i x = .ok (xs.set i x) := by
  simp [writeAt, h]

theorem writeAt_self {xs : List α} {i : ℕ} {x : α} (h : readAt xs i = .ok x) : writeAt xs i x = .ok xs := by
  obtain ⟨hi, rfl⟩ := List.getElem?_eq_some_iff.mp (readAt_eq_ok.mp h)
  rw [writeAt_of_lt hi, List.set_getElem_self]

theorem writeAt_length {xs ys : List α} {i : ℕ} {x : α} (h : writeAt xs i x = .ok ys) :
    ys.length = xs.length := by
  unfold writeAt at h
  split at h
  · rw [← Except.ok.inj h, List.length_set]
  · simp at h

/-- The optional values that a list holds all have a property. -/
def AllSome (P : α → Prop) (xs : List (Option α)) : Prop := ∀ x, some x ∈ xs → P x

theorem AllSome.writeAt {P : α → Prop} {xs ys : List (Option α)} {i : ℕ} {o : Option α} (h : AllSome P xs)
    (ho : ∀ x ∈ o, P x) (hwrite : writeAt xs i o = .ok ys) : AllSome P ys := by
  rw [Framework.writeAt] at hwrite
  split at hwrite
  · cases hwrite
    intro x hx
    rcases List.mem_or_eq_of_mem_set hx with hx | hx
    · exact h x hx
    · exact ho x hx.symm
  · cases hwrite

theorem sliceOf_of_le {xs : List α} {lo hi : ℕ} (h : lo ≤ hi) (h' : hi ≤ xs.length) :
    sliceOf xs lo hi = .ok ((xs.take hi).drop lo) := by
  simp [sliceOf, h, h']

theorem sliceOf_eq_ok {xs ys : List α} {lo hi : ℕ} (h : sliceOf xs lo hi = .ok ys) :
    (lo ≤ hi ∧ hi ≤ xs.length) ∧ ys = (xs.take hi).drop lo := by
  rw [sliceOf] at h
  split at h
  · rename_i hle
    exact ⟨hle, (Except.ok.inj h).symm⟩
  · cases h

theorem copyFront_of_le {xs ys : List α} (h : ys.length ≤ xs.length) :
    copyFront xs ys = .ok (ys ++ xs.drop ys.length) := by
  simp [copyFront, h]

theorem copyFront_length {xs ys zs : List α} (h : copyFront xs ys = .ok zs) : zs.length = xs.length := by
  rw [copyFront] at h
  split at h
  · rename_i hle
    rw [← Except.ok.inj h, List.length_append, List.length_drop]
    omega
  · cases h

theorem copyAt_of_le {xs ys : List α} {off : ℕ} (h : off + ys.length ≤ xs.length) :
    copyAt xs off ys = .ok (xs.take off ++ ys ++ xs.drop (off + ys.length)) := by
  simp [copyAt, h]

theorem copyAt_length {xs ys zs : List α} {off : ℕ} (h : copyAt xs off ys = .ok zs) : zs.length = xs.length := by
  rw [copyAt] at h
  split at h
  · rename_i hle
    rw [← Except.ok.inj h]
    simp only [List.length_append, List.length_take, List.length_drop]
    omega
  · cases h

theorem copyAt_append {xs ys zs : List α} {off : ℕ} (hoff : off = xs.length)
    (h : zs.length ≤ ys.length) :
    copyAt (xs ++ ys) off zs = .ok ((xs ++ zs) ++ ys.drop zs.length) := by
  subst hoff
  rw [copyAt_of_le (by simpa using h)]
  simp [List.drop_append]

theorem insertAt_of_le {xs : List α} {i : ℕ} (h : i ≤ xs.length) (x : α) :
    insertAt xs i x = .ok (xs.take i ++ x :: xs.drop i) := by
  simp [insertAt, h]

theorem drainRange_of_le (xs : List α) {lo hi : ℕ} (h : lo ≤ hi) (h' : hi ≤ xs.length) :
    drainRange xs lo hi = .ok (xs.take lo ++ xs.drop hi) := by
  simp [drainRange, h, h']

theorem swapAt_of_lt {xs : List α} {i j : ℕ} (hi : i < xs.length) (hj : j < xs.length) :
    swapAt xs i j = .ok ((xs.set i xs[j]).set j xs[i]) := by
  rw [swapAt, readAt_of_lt hi, ok_bind, readAt_of_lt hj, ok_bind, writeAt_of_lt hi, ok_bind,
    writeAt_of_lt (by simpa using hj)]

theorem swapAt_perm {xs ys : List α} {i j : ℕ} (h : swapAt xs i j = .ok ys) : ys.Perm xs := by
  have hread : ∀ {l x}, readAt xs l = .ok x → l < xs.length := fun hx =>
    (List.getElem?_eq_some_iff.mp (readAt_eq_ok.mp hx)).1
  have hij : i < xs.length ∧ j < xs.length := by
    simp only [swapAt, bind_eq_ok] at h
    obtain ⟨x, hx, y, hy, -⟩ := h
    exact ⟨hread hx, hread hy⟩
  rw [swapAt_of_lt hij.1 hij.2, Except.ok.injEq] at h
  exact h ▸ List.set_set_perm hij.1 hij.2

theorem checkedSub_of_le {a b : ℕ} (h : b ≤ a) : checkedSub a b = .ok (a - b) := by
  simp [checkedSub, h]

/-! ## Tabulated lists -/

theorem range_map_set (k : ℕ) (f : ℕ → α) (i : ℕ) (x : α) :
    ((List.range k).map f).set i x = (List.range k).map (Function.update f i x) := by
  apply List.ext_getElem
  · simp
  · intro j h1 h2
    rw [List.getElem_set, List.getElem_map, List.getElem_map, List.getElem_range,
      Function.update_apply]
    simp only [eq_comm]

theorem readAt_range_map {k i : ℕ} (hi : i < k) (f : ℕ → α) :
    readAt ((List.range k).map f) i = .ok (f i) := by
  rw [readAt_of_lt (by simpa using hi)]
  simp

theorem writeAt_range_map {k i : ℕ} (hi : i < k) (f : ℕ → α) (x : α) :
    writeAt ((List.range k).map f) i x = .ok ((List.range k).map (Function.update f i x)) := by
  rw [writeAt_of_lt (by simpa using hi), range_map_set]

theorem range_map_append (p q : ℕ) (x y : ℕ → α) :
    (List.range p).map x ++ (List.range q).map y = (List.range (p + q)).map fun i =>
      if i < p then x i else y (i - p) := by
  rw [List.range_add, List.map_append, List.map_map]
  congr 1
  · apply List.map_congr_left
    intro i hi
    rw [if_pos (List.mem_range.mp hi)]
  · apply List.map_congr_left
    intro i _
    simp

theorem swap_lt {k i p t : ℕ} (hi : i < k) (hp : p < k) (ht : t < k) : Equiv.swap i p t < k := by
  rw [Equiv.swap_apply_def]
  split
  · exact hp
  · split
    · exact hi
    · exact ht

theorem swapAt_range_map {k i j : ℕ} (hi : i < k) (hj : j < k) (f : ℕ → α) :
    swapAt ((List.range k).map f) i j = .ok ((List.range k).map fun t => f (Equiv.swap i j t)) := by
  rw [swapAt, readAt_range_map hi, ok_bind, readAt_range_map hj, ok_bind, writeAt_range_map hi,
    ok_bind, writeAt_range_map hj]
  apply congrArg Except.ok
  apply List.map_congr_left
  intro t _
  rw [Function.update_apply, Function.update_apply, Equiv.swap_apply_def]
  split
  · rename_i h; subst h; split
    · rename_i h; rw [h]
    · rfl
  · split <;> rfl

/-! ## Loops -/

theorem mapM_of_forall_ok {f : α → Checked β} {g : α → β} {xs : List α}
    (h : ∀ x ∈ xs, f x = .ok (g x)) : xs.mapM f = .ok (xs.map g) := by
  induction xs with
  | nil => rfl
  | cons x xs ih =>
      rw [List.mapM_cons, h x (by simp), ok_bind, ih fun y hy => h y (by simp [hy])]
      rfl

/-- The loop `for i in 0..n`. -/
def loopTo (n : ℕ) (s : σ) (body : ℕ → σ → Checked σ) : Checked σ :=
  (List.range n).foldlM (fun s i => body i s) s

@[simp] theorem loopTo_zero (s : σ) (body : ℕ → σ → Checked σ) : loopTo 0 s body = .ok s := rfl

theorem loopTo_succ (n : ℕ) (s : σ) (body : ℕ → σ → Checked σ) :
    loopTo (n + 1) s body = loopTo n s body >>= body n := by
  rw [loopTo, List.range_succ, List.foldlM_append]
  apply bind_congr
  intro t
  simp only [List.foldlM_cons, List.foldlM_nil]
  exact bind_pure (body n t)

/-- The loop rule: a step that keeps `P` and does not abort gives a loop that does the same. -/
theorem loopTo_ok {n : ℕ} {s : σ} {f : ℕ → σ → Checked σ} (P : ℕ → σ → Prop) (h0 : P 0 s)
    (hstep : ∀ i t, i < n → P i t → ∃ t', f i t = .ok t' ∧ P (i + 1) t') :
    ∃ t, loopTo n s f = .ok t ∧ P n t := by
  induction n with
  | zero => exact ⟨s, rfl, h0⟩
  | succ n ih =>
      obtain ⟨t, ht, hP⟩ := ih fun i t hi => hstep i t (by omega)
      obtain ⟨t', ht', hP'⟩ := hstep n t (by omega) hP
      exact ⟨t', by rw [loopTo_succ, ht, ok_bind, ht'], hP'⟩

/-- The loop rule for a loop whose state after every number of iterations is known. -/
theorem loopTo_eq {n : ℕ} {s t : σ} {f : ℕ → σ → Checked σ} (g : ℕ → σ) (h0 : g 0 = s)
    (hstep : ∀ i < n, f i (g i) = .ok (g (i + 1))) (hend : g n = t) : loopTo n s f = .ok t := by
  subst hend
  induction n with
  | zero => rw [loopTo_zero, h0]
  | succ n ih =>
      rw [loopTo_succ, ih fun i hi => hstep i (by omega), ok_bind, hstep n (by omega)]

theorem loopTo_range_map {n : ℕ} (x y : ℕ → α) {f : ℕ → List α → Checked (List α)}
    (hstep : ∀ i < n, ∀ ys, readAt ys i = .ok (x i) → f i ys = writeAt ys i (y i)) :
    loopTo n ((List.range n).map x) f = .ok ((List.range n).map y) := by
  apply loopTo_eq (fun i => (List.range n).map fun j => if j < i then y j else x j)
  · simp
  · intro i hi
    rw [hstep i hi _ (by rw [readAt_range_map hi, if_neg (Nat.lt_irrefl i)]), writeAt_range_map hi]
    apply congrArg Except.ok
    apply List.map_congr_left
    intro j _
    by_cases hji : j = i
    · subst hji
      simp
    · have hiff : j < i + 1 ↔ j < i := by omega
      simp [Function.update_of_ne hji, hiff]
  · apply List.map_congr_left
    intro j hj
    rw [if_pos (List.mem_range.mp hj)]

/-- What every completed step establishes for the next index, a completed loop reaches. -/
theorem loopTo_reaches {n : ℕ} {s t : σ} {body : ℕ → σ → Checked σ} (P : ℕ → σ → Prop)
    (h : loopTo n s body = .ok t) (h0 : P 0 s)
    (hstep : ∀ i u u', i < n → P i u → body i u = .ok u' → P (i + 1) u') : P n t := by
  induction n generalizing t with
  | zero => simpa using (Except.ok.inj h) ▸ h0
  | succ n ih =>
      rw [loopTo_succ, bind_eq_ok] at h
      obtain ⟨u, hu, ht⟩ := h
      exact hstep n u t (by omega) (ih hu fun i u u' hi => hstep i u u' (by omega)) ht

theorem loopTo_keeps {n : ℕ} {s t : σ} {body : ℕ → σ → Checked σ} (P : σ → Prop)
    (h : loopTo n s body = .ok t) (h0 : P s)
    (hstep : ∀ i u u', P u → body i u = .ok u' → P u') : P t :=
  loopTo_reaches (fun _ => P) h h0 fun i u u' _ => hstep i u u'

theorem loopTo_step_ok {n i : ℕ} {s t : σ} {body : ℕ → σ → Checked σ} (h : loopTo n s body = .ok t)
    (hi : i < n) : ∃ u u', body i u = .ok u' := by
  induction n generalizing t with
  | zero => omega
  | succ n ih =>
      rw [loopTo_succ, bind_eq_ok] at h
      obtain ⟨u, hu, ht⟩ := h
      rcases Nat.lt_succ_iff_lt_or_eq.mp hi with hlt | rfl
      · exact ih hu hlt
      · exact ⟨u, t, ht⟩

theorem loopTo_error {n j : ℕ} {s : σ} {body : ℕ → σ → Checked σ} {e : Panic}
    (P : ℕ → σ → Prop) (hj : j < n) (h0 : P 0 s)
    (hstep : ∀ i t, i < j → P i t → ∃ t', body i t = .ok t' ∧ P (i + 1) t')
    (herror : ∀ t, P j t → body j t = .error e) : loopTo n s body = .error e := by
  induction n with
  | zero => omega
  | succ n ih =>
      rw [loopTo_succ]
      rcases Nat.lt_succ_iff_lt_or_eq.mp hj with hlt | rfl
      · rw [ih hlt, error_bind]
      · obtain ⟨t, ht, hP⟩ := loopTo_ok P h0 hstep
        rw [ht, ok_bind, herror t hP]

/-- The loop `for i in lo..hi`. -/
def loopFromTo (lo hi : ℕ) (s : σ) (body : ℕ → σ → Checked σ) : Checked σ :=
  loopTo (hi - lo) s fun i => body (lo + i)

theorem loopTo_add (m n : ℕ) (s : σ) (body : ℕ → σ → Checked σ) :
    loopTo (m + n) s body = loopTo m s body >>= fun t => loopTo n t fun i => body (m + i) := by
  induction n with
  | zero => cases loopTo m s body <;> rfl
  | succ n ih =>
      rw [← Nat.add_assoc, loopTo_succ, ih]
      cases loopTo m s body with
      | error e => rfl
      | ok t => simp only [ok_bind, loopTo_succ]

theorem loopFromTo_map {lo hi : ℕ} {xs : List α} {body : ℕ → List α → Checked (List α)}
    (f : ℕ → α → α)
    (hbody : ∀ i x ys, lo ≤ i → i < hi → ys.length = xs.length → ys[i]? = some x →
      body i ys = .ok (ys.set i (f i x)))
    (hhi : hi ≤ xs.length) :
    loopFromTo lo hi xs body =
      .ok (xs.mapIdx fun i x => if lo ≤ i ∧ i < hi then f i x else x) := by
  apply loopTo_eq (fun i => xs.mapIdx fun j x => if lo ≤ j ∧ j < lo + i then f j x else x)
  · rw [List.mapIdx_eq_iff]
    intro j
    cases xs[j]? <;> simp
  · intro i hi'
    have hlt : lo + i < xs.length := by omega
    rw [hbody (lo + i) xs[lo + i] _ (by omega) (by omega) (by simp) (by simp [hlt])]
    congr 1
    symm
    rw [List.mapIdx_eq_iff]
    intro j
    rw [List.getElem?_set, List.getElem?_mapIdx]
    by_cases hj : lo + i = j
    · subst hj
      simp [hlt]
    · have hiff : (lo ≤ j ∧ j < lo + (i + 1)) ↔ (lo ≤ j ∧ j < lo + i) := by omega
      simp [hj, hiff]
  · congr 1
    funext i x
    have hiff : (lo ≤ i ∧ i < lo + (hi - lo)) ↔ (lo ≤ i ∧ i < hi) := by omega
    simp [hiff]

theorem loopTo_map {n : ℕ} {xs : List α} {body : ℕ → List α → Checked (List α)} (f : ℕ → α → α)
    (hbody : ∀ i x ys, i < n → ys.length = xs.length → ys[i]? = some x →
      body i ys = .ok (ys.set i (f i x)))
    (hn : n ≤ xs.length) :
    loopTo n xs body = .ok (xs.mapIdx fun i x => if i < n then f i x else x) := by
  have hloop : loopFromTo 0 n xs body = _ := loopFromTo_map f (fun i x ys _ => hbody i x ys) hn
  simpa [loopFromTo] using hloop

def findFrom (test : ℕ → Checked Bool) : ℕ → ℕ → Checked (Option ℕ)
  | 0, _ => .ok none
  | count + 1, r => do
      if ← test r then return some r else findFrom test count (r + 1)

theorem findFrom_ok {f : ℕ → Checked Bool} {g : ℕ → Bool} {n r : ℕ}
    (h : ∀ i, r ≤ i → i < r + n → f i = .ok (g i)) :
    (∃ p, findFrom f n r = .ok (some p) ∧ r ≤ p ∧ p < r + n ∧ g p = true ∧
        ∀ q, r ≤ q → q < p → g q = false) ∨
      (findFrom f n r = .ok none ∧ ∀ q, r ≤ q → q < r + n → g q = false) := by
  induction n generalizing r with
  | zero => exact .inr ⟨rfl, fun q h1 h2 => absurd h1 (by omega)⟩
  | succ n ih =>
      rw [findFrom, h r le_rfl (by omega), ok_bind]
      cases hr : g r with
      | true => exact .inl ⟨r, rfl, le_rfl, by omega, hr, fun q h1 h2 => absurd h1 (by omega)⟩
      | false =>
          have hstep : ∀ q, r ≤ q → q = r ∨ r + 1 ≤ q := by omega
          rcases ih (r := r + 1) fun i h1 h2 => h i (by omega) (by omega) with
            ⟨p, hp, h1, h2, h3, h4⟩ | ⟨hp, h4⟩
          · refine .inl ⟨p, hp, by omega, by omega, h3, fun q hq hqp => ?_⟩
            rcases hstep q hq with rfl | hlt
            · exact hr
            · exact h4 q hlt hqp
          · refine .inr ⟨hp, fun q hq hqr => ?_⟩
            rcases hstep q hq with rfl | hlt
            · exact hr
            · exact h4 q hlt (by omega)

/-- A loop unrolled four times, followed by the loop over the remaining indices. -/
def unrolledTo (n : ℕ) (s : σ) (body : ℕ → σ → Checked σ) : Checked σ := do
  let s ← loopTo (n / 4) s fun q s => do
    let s ← body (4 * q) s
    let s ← body (4 * q + 1) s
    let s ← body (4 * q + 2) s
    body (4 * q + 3) s
  loopFromTo (4 * (n / 4)) n s body

theorem unrolledTo_eq (n : ℕ) (s : σ) (body : ℕ → σ → Checked σ) :
    unrolledTo n s body = loopTo n s body := by
  have hblocks : ∀ q, loopTo q s (fun q s => do
      let s ← body (4 * q) s
      let s ← body (4 * q + 1) s
      let s ← body (4 * q + 2) s
      body (4 * q + 3) s) = loopTo (4 * q) s body := by
    intro q
    induction q with
    | zero => rfl
    | succ q ih =>
        rw [loopTo_succ, ih, show 4 * (q + 1) = 4 * q + 1 + 1 + 1 + 1 by omega]
        simp only [loopTo_succ, bind_assoc]
  have hsplit := loopTo_add (4 * (n / 4)) (n - 4 * (n / 4)) s body
  rw [Nat.add_sub_cancel' (by omega)] at hsplit
  rw [unrolledTo, hblocks, hsplit]
  rfl

/-- Run a step over a list of inputs, keeping what each call returns. -/
def runAll (step : σ → α → Checked (β × σ)) : σ → List α → Checked (List β × σ)
  | s, [] => .ok ([], s)
  | s, a :: as => do
      let (b, s) ← step s a
      let (bs, s) ← runAll step s as
      return (b :: bs, s)

section Runs

variable {step : σ → α → Checked (β × σ)} {s t u : σ} {a : α} {as as' : List α} {b : β}
  {bs bs' : List β}

theorem runAll_cons (h₁ : step s a = .ok (b, t)) (h₂ : runAll step t as = .ok (bs, u)) :
    runAll step s (a :: as) = .ok (b :: bs, u) := by
  simp only [runAll, h₁, h₂, ok_bind, pure_eq_ok]

theorem runAll_cons_eq_ok :
    runAll step s (a :: as) = .ok (bs, u) ↔ ∃ b t bs', step s a = .ok (b, t) ∧
      runAll step t as = .ok (bs', u) ∧ bs = b :: bs' := by
  constructor
  · intro h
    rw [runAll, bind_eq_ok] at h
    obtain ⟨⟨b, t⟩, hstep, h⟩ := h
    rw [bind_eq_ok] at h
    obtain ⟨⟨bs', u'⟩, hrun, h⟩ := h
    simp only [pure_eq_ok, Except.ok.injEq, Prod.mk.injEq] at h
    obtain ⟨rfl, rfl⟩ := h
    exact ⟨b, t, bs', hstep, hrun, rfl⟩
  · rintro ⟨b, t, bs', hstep, hrun, rfl⟩
    exact runAll_cons hstep hrun

theorem runAll_invariant (P : σ → Prop) (hrun : runAll step s as = .ok (bs, u)) (h : P s)
    (hstep : ∀ s a b t, P s → step s a = .ok (b, t) → P t) : P u := by
  induction as generalizing s bs with
  | nil =>
      cases hrun
      exact h
  | cons a as ih =>
      obtain ⟨b, t, bs', hfirst, hrest, -⟩ := runAll_cons_eq_ok.mp hrun
      exact ih hrest (hstep s a b t h hfirst)

theorem runAll_append_eq (step : σ → α → Checked (β × σ)) (s : σ) (as as' : List α) :
    runAll step s (as ++ as') = (do
      let (bs, t) ← runAll step s as
      let (bs', u) ← runAll step t as'
      return (bs ++ bs', u)) := by
  induction as generalizing s with
  | nil => exact (bind_pure (runAll step s as')).symm
  | cons a as ih => simp [runAll, ih]

theorem runAll_append (h₁ : runAll step s as = .ok (bs, t))
    (h₂ : runAll step t as' = .ok (bs', u)) :
    runAll step s (as ++ as') = .ok (bs ++ bs', u) := by
  simp only [runAll_append_eq, h₁, h₂, ok_bind, pure_eq_ok]

end Runs

end QuicFuscate.Framework
