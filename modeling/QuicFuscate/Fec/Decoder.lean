import QuicFuscate.Fec.Wiedemann

/-!
# The GF(2^8) decoder

A decoder collects coefficient rows until it has `k` of them and then solves the system once.
Systematic packets go to the slot given by their id modulo `k` and contribute an identity row
without a payload; repair packets contribute their coefficient row with their payload block.
-/

namespace QuicFuscate.Fec

open Framework

inductive DecodingStrategy
  | gaussianElimination | wiedemann
  deriving DecidableEq, Repr

structure Decoder where
  k : ℕ
  decodingMatrix : CsrMatrix
  systematicPackets : List (Option Packet)
  isDecoded : Bool
  strategy : DecodingStrategy
  deriving DecidableEq, Repr

def solvedPacket (env : Platform) (i : ℕ) (bytes : List UInt8) (len : ℕ) : Checked Packet := do
  return ⟨i, some (← copyFront env.alloc bytes), len, true, none, 0⟩

/-! ## Elimination -/

def findPivot (m : CsrMatrix) (i : ℕ) : Checked (Option ℕ) :=
  findFrom (fun r => do return (← m.getVal r i) ≠ 0) (m.numRows - i) i

def clearColumn (env : Platform) (m : CsrMatrix) (i : ℕ) : Checked CsrMatrix :=
  loopTo m.numRows m fun row m => do
    if i = row then
      return m
    let factor ← m.getVal row i
    if factor ≠ 0 then
      m.addScaledRow env row i factor
    else
      return m

def eliminateColumn (env : Platform) (m : CsrMatrix) (i : ℕ) : Checked (Option CsrMatrix) := do
  match ← findPivot m i with
  | none => return none
  | some pivotRow =>
      let m ← m.swapRows i pivotRow
      let pivotInv ← gfInv (← m.getVal i i)
      let m ← m.scaleRow env i pivotInv
      return some (← clearColumn env m i)

def eliminateColumns (env : Platform) (k : ℕ) : ℕ → ℕ → ℕ → CsrMatrix → Checked (ℕ × CsrMatrix)
  | 0, _, rank, m => .ok (rank, m)
  | count + 1, i, rank, m => do
      match ← eliminateColumn env m i with
      | some m =>
          if rank + 1 = k then return (rank + 1, m)
          else eliminateColumns env k count (i + 1) (rank + 1) m
      | none => eliminateColumns env k count (i + 1) rank m

namespace Decoder

def new (k : ℕ) : Decoder where
  k := k
  decodingMatrix := CsrMatrix.new k
  systematicPackets := List.replicate k none
  isDecoded := false
  strategy := if k > 256 then .wiedemann else .gaussianElimination

def reconstruct (env : Platform) (m : CsrMatrix) (k : ℕ) (slots : List (Option Packet)) :
    Checked (List (Option Packet)) :=
  loopTo k slots fun i slots => do
    match ← readAt slots i with
    | some _ => return slots
    | none =>
        match ← m.getPayload i with
        | some dataSlice =>
            writeAt slots i (some (← solvedPacket env i dataSlice dataSlice.length))
        | none => return slots

def gaussianElimination (env : Platform) (d : Decoder) : Checked (Bool × Decoder) := do
  let (rank, m) ← eliminateColumns env d.k d.k 0 0 d.decodingMatrix
  if rank < d.k then
    return (false, { d with decodingMatrix := m })
  let slots ← reconstruct env m d.k d.systematicPackets
  return (true, { d with decodingMatrix := m, systematicPackets := slots, isDecoded := true })

def wiedemannAlgorithm (env : Platform) (d : Decoder) : Checked (Bool × Decoder) := do
  match ← wiedemannSolve env d.k d.decodingMatrix with
  | none => return (false, d)
  | some (result, maxLen) =>
      let slots ← loopTo result.length d.systematicPackets fun i slots => do
        match ← readAt slots i with
        | some _ => return slots
        | none => writeAt slots i (some (← solvedPacket env i (← readAt result i) maxLen))
      return (true, { d with systematicPackets := slots, isDecoded := true })

def tryDecode (env : Platform) (d : Decoder) : Checked (Bool × Decoder) := do
  if d.isDecoded then
    return (true, d)
  if d.decodingMatrix.numRows < d.k then
    return (false, d)
  match d.strategy with
  | .gaussianElimination => d.gaussianElimination env
  | .wiedemann => d.wiedemannAlgorithm env

def addRow (env : Platform) (d : Decoder) (row : List UInt8) (payload : Option (List UInt8)) :
    Checked (Except String Bool × Decoder) := do
  let (decoded, d) ← tryDecode env { d with decodingMatrix := d.decodingMatrix.appendRow row payload }
  return (.ok decoded, d)

def addPacket (env : Platform) (d : Decoder) (packet : Packet) :
    Checked (Except String Bool × Decoder) := do
  if d.isDecoded ∨ d.decodingMatrix.numRows ≥ d.k then
    return (.ok d.isDecoded, d)
  if packet.isSystematic then
    let index := packet.id % d.k
    let identityRow ← writeAt (List.replicate d.k 0) index 1
    match ← readAt d.systematicPackets index with
    | some _ => return (.ok d.isDecoded, d)
    | none =>
        let slots ← writeAt d.systematicPackets index (some packet)
        addRow env { d with systematicPackets := slots } identityRow none
  else
    match packet.coefficients with
    | some coeffs => addRow env d (← sliceOf coeffs 0 packet.coeffLen) packet.data
    | none => return (.error "Repair packet missing coefficients.", d)

def getDecodedPackets (d : Decoder) : List Packet × Decoder :=
  (d.systematicPackets.filterMap id,
    { d with systematicPackets := d.systematicPackets.map fun _ => none })

end Decoder

end QuicFuscate.Fec
