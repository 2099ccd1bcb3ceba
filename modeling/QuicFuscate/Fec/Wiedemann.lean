import QuicFuscate.Fec.CsrMatrix

/-!
# The Wiedemann solver

Windows of more than 256 packets are solved through the minimal polynomial of a Krylov sequence.
Matrices are dense lists of rows here, as in the source.
-/

namespace QuicFuscate.Fec

open Framework

abbrev Dense := List (List UInt8)

def wiedemannBlock (k : ℕ) : ℕ := min (max (k / 256) 1) 32

def initVector (k b : ℕ) : List UInt8 :=
  (List.range k).map fun i => UInt8.ofNat ((i + b + 1) % 255)

def initVectors (k : ℕ) : List (List UInt8) := (List.range (wiedemannBlock k)).map (initVector k)

def denseMatrix (m : CsrMatrix) (k : ℕ) : Checked Dense :=
  (List.range k).mapM fun row => do
    CsrMatrix.densify k (← m.rowEntries row)

def matVecMul (env : Platform) (a : Dense) (x : List UInt8) : Checked (List UInt8) :=
  (List.range x.length).mapM fun r =>
    loopTo x.length 0 fun c acc => do
      let arc ← readAt (← readAt a r) c
      if arc ≠ 0 then
        return acc ^^^ gfMul env.policy arc (← readAt x c)
      return acc

def dotProduct (env : Platform) (k : ℕ) (x y : List UInt8) : Checked UInt8 :=
  loopTo k 0 fun i dot => do
    return dot ^^^ gfMul env.policy (← readAt x i) (← readAt y i)

def krylovSequence (env : Platform) (k : ℕ) (a : Dense) (w : List UInt8) :
    Checked (List UInt8) := do
  let s ← loopTo (2 * k) (([], w) : List UInt8 × List UInt8) fun _ s => do
    let dot ← dotProduct env k w s.2
    let v ← matVecMul env a s.2
    return (s.1 ++ [dot], v)
  return s.1

def blockLanczosIteration (env : Platform) (k : ℕ) (m : CsrMatrix) (init : List (List UInt8)) :
    Checked (List (List UInt8)) := do
  let a ← denseMatrix m k
  init.mapM (krylovSequence env k a)

/-! ## Berlekamp-Massey -/

structure MasseyState where
  c : List UInt8
  bb : List UInt8
  l : ℕ
  m : ℕ
  deriving DecidableEq, Repr

def discrepancyAt (env : Platform) (s : List UInt8) (st : MasseyState) (i : ℕ) : Checked UInt8 := do
  loopTo st.l (← readAt s i) fun j d => do
    return d ^^^ gfMul env.policy (← readAt st.c (j + 1)) (← readAt s (← checkedSub i (j + 1)))

def correctPoly (env : Platform) (n : ℕ) (st : MasseyState) (coef : UInt8) (shift : ℕ) :
    Checked (List UInt8) :=
  loopTo (n - shift) st.c fun j c => do
    writeAt c (j + shift) ((← readAt c (j + shift)) ^^^ gfMul env.policy coef (← readAt st.bb j))

def masseyStep (env : Platform) (s : List UInt8) (i : ℕ) (st : MasseyState) :
    Checked MasseyState := do
  let d ← discrepancyAt env s st i
  if d ≠ 0 then
    let coef := gfMul env.policy d (← gfInv (← readAt st.bb 0))
    let shift ← checkedSub i st.m
    let c ← correctPoly env s.length st coef shift
    if 2 * st.l ≤ i then
      return ⟨c, st.c, i + 1 - st.l, i⟩
    return { st with c := c }
  return st

def masseyInit (n : ℕ) : MasseyState := ⟨1 :: List.replicate n 0, 1 :: List.replicate n 0, 0, 0⟩

def berlekampMassey (env : Platform) (s : List UInt8) : Checked (Option (List UInt8)) := do
  let st ← loopTo s.length (masseyInit s.length) (masseyStep env s)
  return some (st.c.take (st.l + 1))

/-! ## Dense products and the inverse -/

def matMulRow (env : Platform) (ai : List UInt8) (b : Dense) (cols : ℕ) : Checked (List UInt8) :=
  loopTo b.length (List.replicate cols 0) fun k out => do
    let aik ← readAt ai k
    if aik = 0 then
      return out
    let bk ← readAt b k
    loopTo cols out fun j out => do
      writeAt out j ((← readAt out j) ^^^ gfMul env.policy aik (← readAt bk j))

def matMul (env : Platform) (a b : Dense) : Checked Dense := do
  let cols := (← readAt b 0).length
  a.mapM fun ai => matMulRow env ai b cols

def identityMatrix (k : ℕ) : Dense :=
  (List.range k).map fun i => (List.replicate k 0).set i 1

def matrixPowers (env : Platform) (a : Dense) (k count : ℕ) : Checked (List Dense) :=
  loopTo count [identityMatrix k] fun _ powers => do
    return powers ++ [← matMul env (← expectSome powers.getLast?) a]

def addScaledMatrix (env : Platform) (k : ℕ) (coef : UInt8) (mat acc : Dense) : Checked Dense :=
  loopTo k acc fun r acc => do
    let row ← loopTo k (← readAt acc r) fun c row => do
      writeAt row c ((← readAt row c) ^^^ gfMul env.policy coef (← readAt (← readAt mat r) c))
    writeAt acc r row

def polyInverse (env : Platform) (k : ℕ) (poly : List UInt8) (powers : List Dense) :
    Checked Dense := do
  let c0Inv ← gfInv (← readAt poly 0)
  loopFromTo 1 poly.length (List.replicate k (List.replicate k 0)) fun idx aInv => do
    let coef := gfMul env.policy (← readAt poly idx) c0Inv
    addScaledMatrix env k coef (← readAt powers (idx - 1)) aInv

/-- The payloads as a matrix of `k` rows, padded with zeros, with its width. -/
def payloadMatrix (k : ℕ) (payloads : List (Option (List UInt8))) : Checked (Dense × ℕ) := do
  let maxLen := (payloads.filterMap fun p => p.map List.length).foldl max 0
  let bMat ← loopTo payloads.length (List.replicate k (List.replicate maxLen 0)) fun r bMat => do
    match ← readAt payloads r with
    | some p => writeAt bMat r (← copyFront (← readAt bMat r) p)
    | none => return bMat
  return (bMat, maxLen)

/-- The rows of the solution with the payload width, or `none` when the polynomial does not give
an inverse. -/
def wiedemannSolve (env : Platform) (k : ℕ) (m : CsrMatrix) : Checked (Option (Dense × ℕ)) := do
  let seq ← blockLanczosIteration env k m (initVectors k)
  let a ← denseMatrix m k
  let (bMat, maxLen) ← payloadMatrix k m.payloads
  match ← berlekampMassey env (← readAt seq 0) with
  | none => return none
  | some poly =>
      if poly.length ≤ 1 then
        return none
      if (← readAt poly 0) = 0 then
        return none
      let powers ← matrixPowers env a k (poly.length - 1)
      let aInv ← polyInverse env k poly powers
      return some (← matMul env aInv bMat, maxLen)

end QuicFuscate.Fec
