import QuicFuscate.Fec.Packet

/-!
# Two readers of one format

`Frame.parse` says what a string of bytes means, without a buffer or a pool.  One reader copies the
parts of the string into fresh blocks, the other moves the payload to the front of the block that it
was received in; both follow `Frame.parse`.
-/

namespace QuicFuscate.Fec

open Framework

namespace Packet

/-- Two packets with the same flag, coefficients and payload. -/
structure SameContent (p q : Packet) : Prop where
  isSystematic_eq : q.isSystematic = p.isSystematic
  coeffLen_eq : q.coeffLen = p.coeffLen
  coefficients_eq : q.coefficients.map (List.take q.coeffLen) =
    p.coefficients.map (List.take p.coeffLen)
  len_eq : q.len = p.len
  payload_eq : q.data.map (List.take q.len) = p.data.map (List.take p.len)

end Packet

/-- The parts of a frame; systematic frames have no coefficients. -/
structure Frame where
  coefficients : Option (List UInt8)
  payload : List UInt8
  deriving DecidableEq, Repr

/-- Where a string ends too early. -/
inductive Truncated
  | flag
  | coefficientLength
  | coefficients
  deriving DecidableEq, Repr

namespace Frame

def parse : List UInt8 → Except Truncated Frame
  | [] => .error .flag
  | flag :: rest =>
      if flag = 1 then .ok ⟨none, rest⟩
      else match rest with
        | hi :: lo :: rest =>
            if rest.length < (fromBeBytes hi lo).toNat then .error .coefficients
            else .ok ⟨some (rest.take (fromBeBytes hi lo).toNat), rest.drop (fromBeBytes hi lo).toNat⟩
        | _ => .error .coefficientLength

/-- The kinds of strings, with what they mean. -/
inductive Meaning : List UInt8 → Except Truncated Frame → Prop
  | empty : Meaning [] (.error .flag)
  | systematic (payload : List UInt8) : Meaning (1 :: payload) (.ok ⟨none, payload⟩)
  | unsized {flag : UInt8} {rest : List UInt8} (hflag : flag ≠ 1) (hrest : rest.length < 2) :
      Meaning (flag :: rest) (.error .coefficientLength)
  | short {flag hi lo : UInt8} {rest : List UInt8} (hflag : flag ≠ 1)
      (hrest : rest.length < (fromBeBytes hi lo).toNat) :
      Meaning (flag :: hi :: lo :: rest) (.error .coefficients)
  | repair {flag hi lo : UInt8} {coeffs : List UInt8} (payload : List UInt8) (hflag : flag ≠ 1)
      (hcoeffs : coeffs.length = (fromBeBytes hi lo).toNat) :
      Meaning ([flag, hi, lo] ++ coeffs ++ payload) (.ok ⟨some coeffs, payload⟩)

theorem meaning_parse (raw : List UInt8) : Meaning raw (parse raw) := by
  match raw with
  | [] => exact .empty
  | flag :: rest =>
      by_cases hflag : flag = 1
      · subst hflag
        exact .systematic rest
      · match rest with
        | [] =>
            simp only [parse, if_neg hflag]
            exact .unsized hflag Nat.two_pos
        | [hi] =>
            simp only [parse, if_neg hflag]
            exact .unsized hflag Nat.one_lt_two
        | hi :: lo :: rest =>
            simp only [parse, if_neg hflag]
            split
            · rename_i hrest
              exact .short hflag hrest
            · rename_i hrest
              have hcoeffs := List.length_take_of_le (not_lt.mp hrest)
              have hraw : flag :: hi :: lo :: rest = [flag, hi, lo] ++ rest.take (fromBeBytes hi lo).toNat ++
                  rest.drop (fromBeBytes hi lo).toNat := by simp
              rw [hraw]
              exact .repair _ hflag hcoeffs

def coeffLen (f : Frame) : ℕ := (f.coefficients.getD []).length

def packet (f : Frame) (id : ℕ) (coeffRest rest : List UInt8) : Packet :=
  ⟨id, some (f.payload ++ rest), f.payload.length, f.coefficients.isNone, f.coefficients.map (· ++ coeffRest),
    f.coeffLen⟩

private theorem packet_sameContent (f : Frame) (id id' : ℕ) (coeffRest rest coeffRest' rest' : List UInt8) :
    (f.packet id coeffRest rest).SameContent (f.packet id' coeffRest' rest') := by
  refine ⟨rfl, rfl, ?_, rfl, ?_⟩
  · cases hc : f.coefficients with
    | none => simp [packet, hc]
    | some c => simp [packet, coeffLen, hc]
  · simp [packet]

theorem parse_length {raw : List UInt8} {f : Frame} (h : parse raw = .ok f) :
    f.coeffLen ≤ raw.length ∧ f.payload.length ≤ raw.length := by
  have hmeaning := meaning_parse raw
  rw [h] at hmeaning
  cases hmeaning with
  | systematic payload => exact ⟨Nat.zero_le _, by simp⟩
  | repair payload hflag hcoeffs => exact ⟨by simp [coeffLen]; omega, by simp; omega⟩

end Frame

/-- The error that `from_raw` reports. -/
def Truncated.fromRawText : Truncated → String
  | .flag => "Raw data is empty"
  | .coefficientLength => "Buffer too short for coefficient length"
  | .coefficients => "Buffer too short for coefficients"

/-- The error that `from_block` reports, whose length says that there is no flag. -/
def Truncated.fromBlockText : Truncated → String
  | .flag => "Invalid raw packet length"
  | t => t.fromRawText

namespace Packet

variable (env : Platform) (id : ℕ)

theorem slice_middle (xs ys zs : List UInt8) {n m : ℕ} (hn : n = xs.length) (hm : m = xs.length + ys.length) :
    sliceOf (xs ++ ys ++ zs) n m = .ok ys := by
  subst hn hm
  rw [sliceOf_of_le (by simp) (by simp), List.take_left' (by simp), List.drop_left]

theorem slice_end (xs ys : List UInt8) {n : ℕ} (hn : n = xs.length) :
    sliceOf (xs ++ ys) n (xs ++ ys).length = .ok ys := by
  have h := slice_middle xs ys [] hn List.length_append
  rwa [List.append_nil] at h

theorem copyWithin_append {xs ys zs : List UInt8} {offset len : ℕ}
    (hoff : offset = xs.length) (hlen : len = xs.length + ys.length) :
    copyWithin (xs ++ ys ++ zs) offset len = .ok (ys ++ (xs ++ ys ++ zs).drop ys.length) := by
  subst hoff hlen
  rw [copyWithin, sliceOf_of_le (by omega) (by simp), ok_bind, List.take_left' (by simp),
    List.drop_left, copyFront_of_le (by simp; omega)]

/-- `from_raw` looks at the size of its blocks after it has written the coefficients. -/
theorem fromRaw_eq (raw : List UInt8) : fromRaw env id raw =
    match Frame.parse raw with
    | .error t => .ok (.error t.fromRawText)
    | .ok f =>
        if env.blockSize < f.coeffLen then .error .indexOutOfBounds
        else if env.blockSize < f.payload.length then .ok (.error "Buffer from pool is too small")
        else .ok (.ok (f.packet id (env.alloc.drop f.coeffLen) (env.alloc.drop f.payload.length))) := by
  have hmeaning := Frame.meaning_parse raw
  generalize Frame.parse raw = meaning at hmeaning
  rw [fromRaw]
  cases hmeaning with
  | empty => rfl
  | systematic payload =>
      have hflag : readAt (1 :: payload) 0 = .ok 1 := rfl
      have hpayload : sliceOf (1 :: payload) 1 (1 :: payload).length = .ok payload := slice_end [1] payload rfl
      rw [if_neg (by simp), hflag, ok_bind, if_pos rfl, hpayload, ok_bind]
      change (if env.blockSize < payload.length then _ else _) = if env.blockSize < 0 then _ else _
      rw [if_neg (Nat.not_lt_zero _)]
      split
      · rfl
      · rename_i hfits
        rw [copyFront_of_le (by simpa using hfits)]
        rfl
  | @unsized flag rest hsys hrest =>
      have hflag : readAt (flag :: rest) 0 = .ok flag := rfl
      rw [if_neg (by simp), hflag, ok_bind, if_neg hsys, if_pos (by simp; omega)]
      rfl
  | @short flag hi lo rest hsys hrest =>
      have hflag : readAt (flag :: hi :: lo :: rest) 0 = .ok flag := rfl
      have hhi : readAt (flag :: hi :: lo :: rest) 1 = .ok hi := rfl
      have hlo : readAt (flag :: hi :: lo :: rest) 2 = .ok lo := rfl
      rw [if_neg (by simp), hflag, ok_bind, if_neg hsys, if_neg (by simp), hhi, ok_bind, hlo, ok_bind]
      dsimp only
      rw [if_pos (by simp; omega)]
      rfl
  | @repair flag hi lo coeffs payload hsys hcoeffs =>
      have hflag : readAt ([flag, hi, lo] ++ coeffs ++ payload) 0 = .ok flag := rfl
      have hhi : readAt ([flag, hi, lo] ++ coeffs ++ payload) 1 = .ok hi := rfl
      have hlo : readAt ([flag, hi, lo] ++ coeffs ++ payload) 2 = .ok lo := rfl
      have hslice : sliceOf ([flag, hi, lo] ++ coeffs ++ payload) 3 (3 + coeffs.length) = .ok coeffs :=
        slice_middle _ _ _ rfl rfl
      rw [if_neg (by simp), hflag, ok_bind, if_neg hsys, if_neg (by simp), hhi, ok_bind, hlo, ok_bind, ← hcoeffs]
      dsimp only
      rw [if_neg (by simp; omega), hslice, ok_bind]
      change _ = if env.blockSize < coeffs.length then _ else if env.blockSize < payload.length then _ else _
      by_cases hfits : env.blockSize < coeffs.length
      · rw [if_pos hfits, copyFront, if_neg (by simpa using hfits), error_bind]
      · rw [if_neg hfits, copyFront_of_le (by simpa using hfits), ok_bind, slice_end _ _ (by simp; omega), ok_bind]
        split
        · rfl
        · rename_i hroom
          rw [copyFront_of_le (by simpa using hroom)]
          rfl

theorem fromBlock_eq (raw rest : List UInt8) : fromBlock env id (raw ++ rest) raw.length =
    match Frame.parse raw with
    | .error t => .ok (.error t.fromBlockText)
    | .ok f =>
        if env.blockSize < f.coeffLen then .error .indexOutOfBounds
        else .ok (.ok (f.packet id (env.alloc.drop f.coeffLen) ((raw ++ rest).drop f.payload.length))) := by
  have hmeaning := Frame.meaning_parse raw
  generalize Frame.parse raw = meaning at hmeaning
  rw [fromBlock]
  cases hmeaning with
  | empty => rfl
  | systematic payload =>
      have hflag : readAt (1 :: payload ++ rest) 0 = .ok 1 := rfl
      have hcopy : copyWithin (1 :: payload ++ rest) 1 (1 :: payload).length = _ :=
        @copyWithin_append [1] payload rest _ _ rfl (Nat.add_comm _ _)
      rw [if_neg (by simp), hflag, ok_bind, if_pos rfl, hcopy, ok_bind]
      change _ = if env.blockSize < 0 then _ else _
      rw [if_neg (Nat.not_lt_zero _)]
      rfl
  | @unsized flag short hsys hrest =>
      have hflag : readAt (flag :: short ++ rest) 0 = .ok flag := rfl
      rw [if_neg (by simp), hflag, ok_bind, if_neg hsys, if_pos (by simp; omega)]
      rfl
  | @short flag hi lo coeffs hsys hrest =>
      have hflag : readAt (flag :: hi :: lo :: coeffs ++ rest) 0 = .ok flag := rfl
      have hhi : readAt (flag :: hi :: lo :: coeffs ++ rest) 1 = .ok hi := rfl
      have hlo : readAt (flag :: hi :: lo :: coeffs ++ rest) 2 = .ok lo := rfl
      rw [if_neg (by simp), hflag, ok_bind, if_neg hsys, if_neg (by simp), hhi, ok_bind, hlo, ok_bind]
      dsimp only
      rw [if_pos (by simp; omega)]
      rfl
  | @repair flag hi lo coeffs payload hsys hcoeffs =>
      have hflag : readAt ([flag, hi, lo] ++ coeffs ++ payload ++ rest) 0 = .ok flag := rfl
      have hhi : readAt ([flag, hi, lo] ++ coeffs ++ payload ++ rest) 1 = .ok hi := rfl
      have hlo : readAt ([flag, hi, lo] ++ coeffs ++ payload ++ rest) 2 = .ok lo := rfl
      have hslice : sliceOf ([flag, hi, lo] ++ coeffs ++ payload ++ rest) 3 (3 + coeffs.length) = .ok coeffs := by
        rw [List.append_assoc]
        exact slice_middle _ _ _ rfl rfl
      have hcopy : copyWithin ([flag, hi, lo] ++ coeffs ++ payload ++ rest) (3 + coeffs.length)
          ([flag, hi, lo] ++ coeffs ++ payload).length = _ :=
        copyWithin_append (by simp; omega) List.length_append
      rw [if_neg (by simp), hflag, ok_bind, if_neg hsys, if_neg (by simp), hhi, ok_bind, hlo, ok_bind, ← hcoeffs]
      dsimp only
      rw [if_neg (by simp; omega), hslice, ok_bind]
      change _ = if env.blockSize < coeffs.length then _ else _
      by_cases hfits : env.blockSize < coeffs.length
      · rw [if_pos hfits, copyFront, if_neg (by simpa using hfits), error_bind]
      · have hlen : ([flag, hi, lo] ++ coeffs ++ payload).length - (3 + coeffs.length) = payload.length := by
          simp
          omega
        rw [if_neg hfits, copyFront_of_le (by simpa using hfits), ok_bind, hcopy, ok_bind, hlen]
        rfl

/-- A string that fits into a block is read alike from a copy and in the block that it arrived in. -/
theorem parsers_agree {raw block : List UInt8} (hraw : raw <+: block) (hblock : block.length = env.blockSize) :
    (∃ e e', fromRaw env id raw = .ok (.error e) ∧ fromBlock env id block raw.length = .ok (.error e')) ∨
      ∃ p q, fromRaw env id raw = .ok (.ok p) ∧ fromBlock env id block raw.length = .ok (.ok q) ∧
        SameContent p q := by
  obtain ⟨rest, rfl⟩ := hraw
  rw [fromRaw_eq, fromBlock_eq]
  cases hparse : Frame.parse raw with
  | error t => exact .inl ⟨_, _, rfl, rfl⟩
  | ok f =>
      obtain ⟨hcoeffs, hpayload⟩ := Frame.parse_length hparse
      rw [List.length_append] at hblock
      dsimp only
      rw [if_neg (by omega), if_neg (by omega), if_neg (by omega)]
      exact .inr ⟨_, _, rfl, rfl, f.packet_sameContent _ _ _ _ _ _⟩

theorem parsers_agree_repair : ∃ p q, fromRaw ⟨.scalar, 8⟩ 7 [0, 0, 2, 5, 6, 9] = .ok (.ok p) ∧
    fromBlock ⟨.scalar, 8⟩ 7 [0, 0, 2, 5, 6, 9, 1, 1] 6 = .ok (.ok q) ∧ SameContent p q := by
  have hraw : [0, 0, 2, 5, 6, 9] <+: ([0, 0, 2, 5, 6, 9, 1, 1] : List UInt8) := ⟨[1, 1], rfl⟩
  rcases parsers_agree ⟨.scalar, 8⟩ 7 hraw rfl with ⟨e, e', he, -⟩ | hagree
  · cases he
  · exact hagree

end Packet

end QuicFuscate.Fec
