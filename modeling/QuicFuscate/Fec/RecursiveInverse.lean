import QuicFuscate.Fec.Wiedemann

/-!
# Block-recursive inversion

The inverse of a dense matrix from the inverse of its leading half and that of the Schur complement.
A single entry is inverted without a test, so that a zero aborts.
-/

namespace QuicFuscate.Fec

open Framework

def copyBlock (m : Dense) (r₀ c₀ rows cols : ℕ) : Checked Dense :=
  (List.range rows).mapM fun i => do
    let row ← readAt m (r₀ + i)
    (List.range cols).mapM fun j => readAt row (c₀ + j)

def xorMatrix (rows cols : ℕ) (a b : Dense) : Checked Dense :=
  (List.range rows).mapM fun i => do
    let ai ← readAt a i
    let bi ← readAt b i
    (List.range cols).mapM fun j => do
      return (← readAt ai j) ^^^ (← readAt bi j)

def joinRows (rows p q : ℕ) (left right : Dense) : Checked Dense :=
  (List.range rows).mapM fun i => do
    let l ← readAt left i
    let r ← readAt right i
    return (← (List.range p).mapM fun j => readAt l j) ++ (← (List.range q).mapM fun j => readAt r j)

/-- The second half of an inversion: the inverse from that of the leading block and that of the Schur complement. -/
def assembleInverse (env : Platform) (mid rest : ℕ) (b aInv caInv schurInv : Dense) : Checked Dense := do
  let upperRight ← matMul env (← matMul env aInv b) schurInv
  let upperRight := upperRight.map fun row => row.map fun val => gfMul env.policy val 1
  let lowerLeft ← matMul env schurInv caInv
  let upperLeft ← matMul env (← matMul env (← matMul env aInv b) schurInv) caInv
  let resA ← xorMatrix aInv.length aInv.length aInv upperLeft
  return (← joinRows mid mid rest resA upperRight) ++ (← joinRows rest mid rest lowerLeft schurInv)

/-- The recursion halves the matrix, so its size bounds the depth. -/
def recursiveInverseLoop (env : Platform) : ℕ → Dense → Checked (Option Dense)
  | 0, _ => return none
  | fuel + 1, m => do
      let n := m.length
      if n = 0 then
        return none
      if n = 1 then
        let inv ← gfInv (← readAt (← readAt m 0) 0)
        return some [[inv]]
      let mid := n / 2
      let a ← copyBlock m 0 0 mid mid
      let b ← copyBlock m 0 mid mid (n - mid)
      let c ← copyBlock m mid 0 (n - mid) mid
      let d ← copyBlock m mid mid (n - mid) (n - mid)
      match ← recursiveInverseLoop env fuel a with
      | none => return none
      | some aInv =>
          let caInv ← matMul env c aInv
          let temp ← matMul env caInv b
          let schur ← xorMatrix d.length (← readAt d 0).length d temp
          match ← recursiveInverseLoop env fuel schur with
          | none => return none
          | some schurInv => return some (← assembleInverse env mid (n - mid) b aInv caInv schurInv)

def recursiveInverse (env : Platform) (m : Dense) : Checked (Option Dense) := recursiveInverseLoop env m.length m

end QuicFuscate.Fec
