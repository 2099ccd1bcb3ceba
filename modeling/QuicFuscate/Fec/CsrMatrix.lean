import QuicFuscate.Fec.Packet

/-!
# Compressed sparse rows

The decoding matrix keeps its nonzero values and their columns in two flat arrays; `rowPtr` points
to the start of each row.  Row operations splice the arrays and shift the pointers.  A row may carry
a payload block, which row operations transform along with the coefficients when both rows have one.
-/

namespace QuicFuscate.Fec

open Framework

structure CsrMatrix where
  values : List UInt8
  colIndices : List ℕ
  rowPtr : List ℕ
  payloads : List (Option (List UInt8))
  numCols : ℕ
  deriving DecidableEq, Repr

def nonzeroEntries (row : List UInt8) : List (ℕ × UInt8) :=
  (row.zipIdx.filter fun e => e.1 ≠ 0).map fun e => (e.2, e.1)

namespace CsrMatrix

def new (numCols : ℕ) : CsrMatrix := ⟨[], [], [0], [], numCols⟩

def numRows (m : CsrMatrix) : ℕ := m.rowPtr.length - 1

def appendRow (m : CsrMatrix) (row : List UInt8) (payload : Option (List UInt8)) : CsrMatrix :=
  let values := m.values ++ (nonzeroEntries row).map Prod.snd
  { m with
    values := values
    colIndices := m.colIndices ++ (nonzeroEntries row).map Prod.fst
    rowPtr := m.rowPtr ++ [values.length]
    payloads := m.payloads ++ [payload] }

def scanEntries (m : CsrMatrix) (col : ℕ) : ℕ → ℕ → Checked UInt8
  | 0, _ => .ok 0
  | count + 1, i => do
      if (← readAt m.colIndices i) = col then readAt m.values i
      else m.scanEntries col count (i + 1)

def getVal (m : CsrMatrix) (row col : ℕ) : Checked UInt8 := do
  let rowStart ← readAt m.rowPtr row
  let rowEnd ← readAt m.rowPtr (row + 1)
  m.scanEntries col (rowEnd - rowStart) rowStart

def getPayload (m : CsrMatrix) (row : ℕ) : Checked (Option (List UInt8)) := readAt m.payloads row

def rowEntries (m : CsrMatrix) (row : ℕ) : Checked (List (ℕ × UInt8)) := do
  let start ← readAt m.rowPtr row
  let stop ← readAt m.rowPtr (row + 1)
  (List.range' start (stop - start)).mapM fun i => do
    return (← readAt m.colIndices i, ← readAt m.values i)

def shiftPtrs (rowPtr : List ℕ) (row : ℕ) (f : ℕ → Checked ℕ) : Checked (List ℕ) := do
  return rowPtr.take (row + 1) ++ (← (rowPtr.drop (row + 1)).mapM f)

def clearRow (m : CsrMatrix) (row : ℕ) : Checked CsrMatrix := do
  let start ← readAt m.rowPtr row
  let stop ← readAt m.rowPtr (row + 1)
  let diff ← checkedSub stop start
  if diff = 0 then
    return m
  return { m with
    values := ← drainRange m.values start stop
    colIndices := ← drainRange m.colIndices start stop
    rowPtr := ← shiftPtrs m.rowPtr row fun p => checkedSub p diff }

def insertRow (m : CsrMatrix) (row : ℕ) (entries : List (ℕ × UInt8)) : Checked CsrMatrix := do
  let start ← readAt m.rowPtr row
  let values ← entries.reverse.foldlM (fun values e => insertAt values start e.2) m.values
  let colIndices ← entries.reverse.foldlM (fun cols e => insertAt cols start e.1) m.colIndices
  return { m with
    values := values
    colIndices := colIndices
    rowPtr := ← shiftPtrs m.rowPtr row fun p => .ok (p + entries.length) }

def swapRows (m : CsrMatrix) (r1 r2 : ℕ) : Checked CsrMatrix := do
  if r1 = r2 then
    return m
  let row1 ← m.rowEntries r1
  let row2 ← m.rowEntries r2
  let (hi, lo, hiRow, loRow) := if r1 > r2 then (r1, r2, row1, row2) else (r2, r1, row2, row1)
  let m ← m.clearRow hi
  let m ← m.clearRow lo
  let m ← m.insertRow hi loRow
  let m ← m.insertRow lo hiRow
  return { m with payloads := ← swapAt m.payloads r1 r2 }

def scaleRow (env : Platform) (m : CsrMatrix) (row : ℕ) (factor : UInt8) : Checked CsrMatrix := do
  let rowStart ← readAt m.rowPtr row
  let rowEnd ← readAt m.rowPtr (row + 1)
  let values ← loopFromTo rowStart rowEnd m.values fun i values => do
    writeAt values i (gfMul env.policy (← readAt values i) factor)
  match ← readAt m.payloads row with
  | some payload =>
      let payload ← loopTo payload.length payload fun j payload => do
        writeAt payload j (gfMul env.policy (← readAt payload j) factor)
      return { m with values := values, payloads := ← writeAt m.payloads row (some payload) }
  | none => return { m with values := values }

def densify (numCols : ℕ) (entries : List (ℕ × UInt8)) : Checked (List UInt8) :=
  entries.foldlM (fun dense e => writeAt dense e.1 e.2) (List.replicate numCols 0)

/-- The payload loop of `add_scaled_row`. -/
def addScaledPayload (env : Platform) (factor : UInt8) (src tgt : List UInt8) :
    Checked (List UInt8) :=
  unrolledTo (min tgt.length src.length) tgt fun i tgt => do
    writeAt tgt i (gfMulAdd env.policy factor (← readAt src i) (← readAt tgt i))

def addScaledRow (env : Platform) (m : CsrMatrix) (targetRow sourceRow : ℕ) (factor : UInt8) :
    Checked CsrMatrix := do
  let dense ← densify m.numCols (← m.rowEntries targetRow)
  let dense ← (← m.rowEntries sourceRow).foldlM (fun dense e => do
    writeAt dense e.1 ((← readAt dense e.1) ^^^ gfMul env.policy e.2 factor)) dense
  let m ← m.clearRow targetRow
  let m ← m.insertRow targetRow (nonzeroEntries dense)
  match ← readAt m.payloads sourceRow, ← readAt m.payloads targetRow with
  | some src, some tgt =>
      let tgt ← addScaledPayload env factor src tgt
      return { m with payloads := ← writeAt m.payloads targetRow (some tgt) }
  | _, _ => return m

end CsrMatrix

end QuicFuscate.Fec
