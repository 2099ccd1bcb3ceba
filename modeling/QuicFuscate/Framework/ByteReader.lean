import Mathlib.Data.List.Basic

/-!
# Reading byte strings

A reader takes a value off the front of a byte string and leaves the rest.  `Reads` says that a reader
finds a value in exactly the given bytes, whatever follows, and is closed under sequencing; a message
that is written field by field is read back field by field.
-/

namespace QuicFuscate.Framework

abbrev Reader (α : Type) := StateT (List UInt8) Option α

variable {α β : Type}

def readByte : Reader UInt8
  | [] => none
  | b :: rest => some (b, rest)

def readBlock (n : ℕ) : Reader (List UInt8) := fun bytes =>
  if n ≤ bytes.length then some (bytes.take n, bytes.drop n) else none

def readRest : Reader (List UInt8) := fun bytes => some (bytes, [])

def require (p : Prop) [Decidable p] : Reader Unit := fun bytes => if p then some ((), bytes) else none

def ofOption (o : Option α) : Reader α := fun bytes => o.map fun a => (a, bytes)

/-- Read values until nothing is left, `fuel` of them at most. -/
def readAll (r : Reader α) : ℕ → List UInt8 → Option (List α)
  | _, [] => some []
  | 0, _ :: _ => none
  | fuel + 1, b :: bytes =>
      match r (b :: bytes) with
      | none => none
      | some (a, rest) => (readAll r fuel rest).map (a :: ·)

/-- The reader finds `a` in `bytes`, whatever follows. -/
def Reads (r : Reader α) (bytes : List UInt8) (a : α) : Prop := ∀ rest, r (bytes ++ rest) = some (a, rest)

/-- The reader finds `a` in `bytes`, up to their end. -/
def ReadsAll (r : Reader α) (bytes : List UInt8) (a : α) : Prop := r bytes = some (a, [])

theorem bind_eq_some {r : Reader α} {f : α → Reader β} {bytes rest : List UInt8} {b : β} :
    (r >>= f) bytes = some (b, rest) ↔ ∃ a mid, r bytes = some (a, mid) ∧ f a mid = some (b, rest) := by
  change ((r bytes).bind fun p => f p.1 p.2) = _ ↔ _
  rw [Option.bind_eq_some_iff, Prod.exists]

theorem Reads.bind {r : Reader α} {f : α → Reader β} {xs ys : List UInt8} {a : α} {b : β} (hr : Reads r xs a)
    (hf : Reads (f a) ys b) : Reads (r >>= f) (xs ++ ys) b := by
  intro rest
  rw [List.append_assoc, bind_eq_some]
  exact ⟨a, ys ++ rest, hr _, hf rest⟩

theorem Reads.bind_all {r : Reader α} {f : α → Reader β} {xs ys : List UInt8} {a : α} {b : β} (hr : Reads r xs a)
    (hf : ReadsAll (f a) ys b) : ReadsAll (r >>= f) (xs ++ ys) b := by
  rw [ReadsAll, bind_eq_some]
  exact ⟨a, ys, hr ys, hf⟩

theorem ReadsAll.bind {r : Reader α} {f : α → Reader β} {xs : List UInt8} {a : α} {b : β} (hr : ReadsAll r xs a)
    (hf : Reads (f a) [] b) : ReadsAll (r >>= f) xs b := by
  rw [ReadsAll, bind_eq_some]
  exact ⟨a, [], hr, hf []⟩

theorem readsAll_rest (bytes : List UInt8) : ReadsAll readRest bytes bytes := rfl

theorem reads_pure (a : α) : Reads (pure a) [] a := fun _ => rfl

theorem reads_byte (b : UInt8) : Reads readByte [b] b := fun _ => rfl

theorem reads_block {n : ℕ} (xs : List UInt8) (h : xs.length = n) : Reads (readBlock n) xs xs := by
  intro rest
  subst h
  simp [readBlock]

theorem reads_require {p : Prop} [Decidable p] (h : p) : Reads (require p) [] () := fun _ => if_pos h

theorem reads_ofOption {o : Option α} {a : α} (h : o = some a) : Reads (ofOption o) [] a := by
  intro rest
  rw [h]
  rfl

theorem readByte_eq_some {bytes rest : List UInt8} {b : UInt8} (h : readByte bytes = some (b, rest)) :
    bytes = b :: rest := by
  cases bytes with
  | nil => cases h
  | cons c bytes =>
      cases h
      rfl

theorem readBlock_eq_some {n : ℕ} {bytes block rest : List UInt8} (h : readBlock n bytes = some (block, rest)) :
    bytes = block ++ rest ∧ block.length = n := by
  rw [readBlock] at h
  split at h
  · rename_i hle
    cases h
    exact ⟨(List.take_append_drop n bytes).symm, List.length_take_of_le hle⟩
  · cases h

theorem readRest_eq_some {bytes block rest : List UInt8} (h : readRest bytes = some (block, rest)) : block = bytes := by
  cases h
  rfl

theorem ofOption_eq_some {o : Option α} {a : α} {bytes rest : List UInt8} (h : ofOption o bytes = some (a, rest)) :
    o = some a := by
  rw [ofOption, Option.map_eq_some_iff] at h
  obtain ⟨b, hb, heq⟩ := h
  cases heq
  exact hb

theorem pure_eq_some {a b : α} {bytes rest : List UInt8} (h : (pure a : Reader α) bytes = some (b, rest)) : a = b := by
  cases h
  rfl

theorem readAll_append {r : Reader α} {xs rest : List UInt8} {a : α} {as : List α} {fuel : ℕ} (hxs : xs ≠ [])
    (hr : Reads r xs a) (hrest : readAll r fuel rest = some as) :
    readAll r (fuel + 1) (xs ++ rest) = some (a :: as) := by
  obtain ⟨b, ys, rfl⟩ := List.exists_cons_of_ne_nil hxs
  have hread := hr rest
  rw [List.cons_append] at hread ⊢
  rw [readAll, hread]
  simp only [hrest, Option.map_some]

theorem exists_read_of_cons {r : Reader α} {fuel : ℕ} {bytes : List UInt8} {a : α} {as : List α}
    (h : readAll r fuel bytes = some (a :: as)) : ∃ rest, r bytes = some (a, rest) := by
  cases bytes with
  | nil => cases fuel <;> cases h
  | cons b bytes =>
      cases fuel with
      | zero => cases h
      | succ fuel =>
          rw [readAll] at h
          split at h
          · cases h
          · rename_i c rest hread
            rw [Option.map_eq_some_iff] at h
            obtain ⟨as', -, heq⟩ := h
            cases heq
            exact ⟨rest, hread⟩

theorem exists_read_of_mem {r : Reader α} {fuel : ℕ} {bytes : List UInt8} {as : List α}
    (h : readAll r fuel bytes = some as) :
    ∀ a ∈ as, ∃ xs rest, r xs = some (a, rest) := by
  induction fuel generalizing bytes as with
  | zero =>
      cases bytes with
      | nil =>
          cases h
          simp
      | cons b bytes => cases h
  | succ fuel ih =>
      cases bytes with
      | nil =>
          cases h
          simp
      | cons b bytes =>
          rw [readAll] at h
          split at h
          · cases h
          · rename_i a rest hread
            rw [Option.map_eq_some_iff] at h
            obtain ⟨as', hrest, rfl⟩ := h
            intro c hc
            rcases List.mem_cons.mp hc with rfl | hc
            · exact ⟨_, _, hread⟩
            · exact ih hrest c hc

end QuicFuscate.Framework
