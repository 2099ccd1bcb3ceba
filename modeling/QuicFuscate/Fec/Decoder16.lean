import QuicFuscate.Fec.Encoder

/-!
# The GF(2^16) decoder

The matrix is dense here.  Only the repair branch of `addPacket` tries to decode; a systematic
packet leaves an identity row without a payload, and its data is dropped.
-/

namespace QuicFuscate.Fec

open Framework

structure Decoder16 where
  k : ℕ
  matrix : List (List UInt16)
  payloads : List (Option (List UInt8))
  isDecoded : Bool
  deriving DecidableEq, Repr

namespace Decoder16

def new (k : ℕ) : Decoder16 := ⟨k, [], [], false⟩

abbrev Rows := List (List UInt16) × List (Option (List UInt8))

def entry (matrix : List (List UInt16)) (r c : ℕ) : Checked UInt16 := do
  readAt (← readAt matrix r) c

def findPivot (matrix : List (List UInt16)) (k i : ℕ) : Checked (Option ℕ) :=
  findFrom (fun pivot => do return (← entry matrix pivot i) ≠ 0) (k - i) i

def scalePayload (F : Gf16Arith) (inv : UInt16) (p : List UInt8) : Checked (List UInt8) :=
  wordLoop p.length p fun j p => do
    let v ← readWord p j
    writeWord p j (F.mul v inv)

def addScaledPayload (F : Gf16Arith) (factor : UInt16) (src tgt : List UInt8) :
    Checked (List UInt8) :=
  wordLoop src.length tgt fun j tgt => do
    let s ← readWord src j
    let t ← readWord tgt j
    writeWord tgt j (F.gf16MulAdd factor s t)

def normalizeRow (F : Gf16Arith) (s : Rows) (i : ℕ) : Checked Rows := do
  let inv ← F.gf16Inv (← entry s.1 i i)
  let matrix ← writeAt s.1 i ((← readAt s.1 i).map fun val => F.mul val inv)
  match ← readAt s.2 i with
  | some p => return (matrix, ← writeAt s.2 i (some (← scalePayload F inv p)))
  | none => return (matrix, s.2)

def subtractRow (F : Gf16Arith) (k : ℕ) (s : Rows) (i r : ℕ) (factor : UInt16) :
    Checked Rows := do
  let row ← loopTo k (← readAt s.1 r) fun c row => do
    let t := F.mul factor (← entry s.1 i c)
    writeAt row c ((← readAt row c) ^^^ t)
  let matrix ← writeAt s.1 r row
  match ← readAt s.2 i, ← readAt s.2 r with
  | some src, some tgt =>
      return (matrix, ← writeAt s.2 r (some (← addScaledPayload F factor src tgt)))
  | _, _ => return (matrix, s.2)

def clearColumn (F : Gf16Arith) (k : ℕ) (s : Rows) (i : ℕ) : Checked Rows :=
  loopTo k s fun r s => do
    let factor ← entry s.1 r i
    if r ≠ i ∧ factor ≠ 0 then
      subtractRow F k s i r factor
    else
      return s

def eliminateColumn (F : Gf16Arith) (k : ℕ) (s : Rows) (i : ℕ) : Checked (Option Rows) := do
  match ← findPivot s.1 k i with
  | none => return none
  | some pivot =>
      let s := (← swapAt s.1 i pivot, ← swapAt s.2 i pivot)
      let s ← normalizeRow F s i
      return some (← clearColumn F k s i)

def eliminateColumns (F : Gf16Arith) (k : ℕ) : ℕ → ℕ → Rows → Checked (Bool × Rows)
  | 0, _, s => .ok (true, s)
  | count + 1, i, s => do
      match ← eliminateColumn F k s i with
      | some s => eliminateColumns F k count (i + 1) s
      | none => return (false, s)

def tryDecode (F : Gf16Arith) (d : Decoder16) : Checked (Bool × Decoder16) := do
  if d.matrix.length < d.k then
    return (false, d)
  let (solved, s) ← eliminateColumns F d.k d.k 0 (d.matrix, d.payloads)
  let d := { d with matrix := s.1, payloads := s.2 }
  if solved then
    return (true, { d with isDecoded := true })
  return (false, d)

def addPacket (F : Gf16Arith) (d : Decoder16) (packet : Packet) :
    Checked (Except String Bool × Decoder16) := do
  if d.isDecoded ∨ d.matrix.length ≥ d.k then
    return (.ok d.isDecoded, d)
  if packet.isSystematic then
    let row ← writeAt (List.replicate d.k 0) (packet.id % d.k) 1
    return (.ok false, { d with matrix := d.matrix ++ [row], payloads := d.payloads ++ [none] })
  match packet.coefficients with
  | some c =>
      let row ← (List.range d.k).mapM fun i => readWord c (2 * i)
      let d := { d with matrix := d.matrix ++ [row], payloads := d.payloads ++ [packet.data] }
      let (decoded, d) ← d.tryDecode F
      return (.ok decoded, d)
  | none => return (.error "missing coeffs", d)

def getDecodedPackets (d : Decoder16) : List Packet × Decoder16 :=
  ((d.payloads.zipIdx.filterMap fun e =>
      e.1.map fun data => ⟨e.2, some data, data.length, true, none, 0⟩),
    { d with payloads := d.payloads.map fun _ => none })

end Decoder16

end QuicFuscate.Fec
