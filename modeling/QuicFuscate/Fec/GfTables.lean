import QuicFuscate.Framework.Checked
import Mathlib.Logic.Function.Basic

/-!
# Finite-field arithmetic of the FEC module

GF(2^8) is served by logarithm tables and, on machines with a carry-less multiplier, by one
kernel per SIMD policy.  GF(2^16) is served by shift-and-add multiplication.  The tables are
static arrays filled by a loop; they are modelled as total functions that the loop updates.
Prefetches have no effect on results and are left out.
-/

namespace QuicFuscate.Fec

open Framework

/-! ## Policies -/

inductive SimdPolicy
  | avx512 | avx2 | sse2 | pclmulqdq | neon | scalar
  deriving DecidableEq, Repr

/-! ## GF(2^8) tables -/

def irreduciblePoly : ℕ := 0x11D

structure GfTables where
  exp : ℕ → UInt8
  log : ℕ → UInt8

def nextPower (x : ℕ) : ℕ :=
  let x := x <<< 1
  if x ≥ 256 then x ^^^ irreduciblePoly else x

def initStep (s : GfTables × ℕ) (i : ℕ) : GfTables × ℕ :=
  ({ exp := Function.update (Function.update s.1.exp i (UInt8.ofNat s.2)) (i + 255)
      (UInt8.ofNat s.2)
     log := Function.update s.1.log s.2 (UInt8.ofNat i) }, nextPower s.2)

def initGfTables : GfTables :=
  ((List.range 255).foldl initStep (⟨fun _ => 0, fun _ => 0⟩, 1)).1

def expTable (i : ℕ) : UInt8 := initGfTables.exp i

def logTable (a : UInt8) : UInt8 := initGfTables.log a.toNat

def gfMulTable (a b : UInt8) : UInt8 :=
  if a = 0 ∨ b = 0 then 0 else expTable ((logTable a).toNat + (logTable b).toNat)

def gfInv (a : UInt8) : Checked UInt8 :=
  if a = 0 then .error .inverseOfZero else .ok (expTable (255 - (logTable a).toNat))

def gfInvPrefetch (a : UInt8) : Checked UInt8 := gfInv a

/-! ## Carry-less kernels -/

/-- The exact carry-less product of two bytes, as the CLMUL and PMULL instructions compute it. -/
def clmul (a b : UInt8) : UInt16 :=
  (List.range 8).foldl
    (fun acc i => if b.toNat.testBit i then acc ^^^ (a.toUInt16 <<< UInt16.ofNat i) else acc) 0

/-- The folding sequence that follows the product in every kernel. -/
def foldProduct (t : UInt16) : UInt8 :=
  let t := t ^^^ (t >>> 8)
  let t := t ^^^ (t >>> 4)
  let t := t ^^^ (t >>> 2)
  let t := t ^^^ (t >>> 1)
  (t &&& 0xFF).toUInt8

def gfMulBitslicedAvx512 (a b : UInt8) : UInt8 := foldProduct (clmul a b)

def gfMulAvx512 (a b : UInt8) : UInt8 := gfMulBitslicedAvx512 a b

def gfMulBitslicedAvx2 (a b : UInt8) : UInt8 := foldProduct (clmul a b)

def gfMulAvx2 (a b : UInt8) : UInt8 := gfMulBitslicedAvx2 a b

def gfMulBitslicedSse2 (a b : UInt8) : UInt8 := foldProduct (clmul a b)

def gfMulBitslicedNeon (a b : UInt8) : UInt8 := foldProduct (clmul a b)

def gfMulNeon (a b : UInt8) : UInt8 := gfMulBitslicedNeon a b

def mulSliceKernel (kernel : UInt8 → UInt8 → UInt8) (a b out : List UInt8) :
    Checked (List UInt8) :=
  unrolledTo a.length out fun i out => do
    writeAt out i (kernel (← readAt a i) (← readAt b i))

def gfMulSliceAvx512 : List UInt8 → List UInt8 → List UInt8 → Checked (List UInt8) :=
  mulSliceKernel gfMulBitslicedAvx512

def gfMulSliceAvx2 : List UInt8 → List UInt8 → List UInt8 → Checked (List UInt8) :=
  mulSliceKernel gfMulBitslicedAvx2

def gfMulSliceSse2 : List UInt8 → List UInt8 → List UInt8 → Checked (List UInt8) :=
  mulSliceKernel gfMulBitslicedSse2

def gfMulSliceNeon : List UInt8 → List UInt8 → List UInt8 → Checked (List UInt8) :=
  mulSliceKernel gfMulBitslicedNeon

/-- Element-wise multiplication of two equally sized slices; unequal lengths fail an assertion. -/
def gfMulSlice (policy : SimdPolicy) (a b out : List UInt8) : Checked (List UInt8) :=
  if a.length = b.length ∧ out.length = a.length then
    match policy with
    | .avx512 => gfMulSliceAvx512 a b out
    | .avx2 => gfMulSliceAvx2 a b out
    | .sse2 => gfMulSliceSse2 a b out
    | .neon => gfMulSliceNeon a b out
    | _ => loopTo a.length out fun i out => do
        writeAt out i (gfMulTable (← readAt a i) (← readAt b i))
  else .error .assertionFailed

def gfMul (policy : SimdPolicy) (a b : UInt8) : UInt8 :=
  match policy with
  | .avx512 => gfMulAvx512 a b
  | .avx2 => gfMulAvx2 a b
  | .sse2 => gfMulBitslicedSse2 a b
  | .neon => gfMulNeon a b
  | _ => gfMulTable a b

@[simp] theorem gfMul_scalar (a b : UInt8) : gfMul .scalar a b = gfMulTable a b := rfl

@[simp] theorem gfMul_zero (policy : SimdPolicy) (b : UInt8) : gfMul policy 0 b = 0 := by
  have hclmul : clmul 0 b = 0 := by
    rw [clmul]
    apply List.foldl_fixed'
    intro i
    split <;> simp
  cases policy <;>
    simp [gfMul, gfMulAvx512, gfMulAvx2, gfMulNeon, gfMulBitslicedAvx512, gfMulBitslicedAvx2,
      gfMulBitslicedSse2, gfMulBitslicedNeon, hclmul, gfMulTable, foldProduct]

@[simp] theorem gfMul_zero_right (policy : SimdPolicy) (a : UInt8) : gfMul policy a 0 = 0 := by
  have hclmul : clmul a 0 = 0 := by
    rw [clmul]
    apply List.foldl_fixed'
    intro i
    simp
  cases policy <;>
    simp [gfMul, gfMulAvx512, gfMulAvx2, gfMulNeon, gfMulBitslicedAvx512, gfMulBitslicedAvx2,
      gfMulBitslicedSse2, gfMulBitslicedNeon, hclmul, gfMulTable, foldProduct]

def gfMulAdd (policy : SimdPolicy) (a b c : UInt8) : UInt8 := gfMul policy a b ^^^ c

/-! ## GF(2^16) -/

def gf16Poly : ℕ := 0x1100b

/-- The loop of `gf16_mul`.  The overflow test reads bit 16 of a 16-bit word, so its mask is the
16-bit truncation of `0x10000`. -/
def gf16MulLoop : ℕ → UInt16 → UInt16 → UInt16 → UInt16
  | 0, _, _, res => res
  | fuel + 1, a, b, res =>
      if b = 0 then res
      else
        let res := if b &&& 1 ≠ 0 then res ^^^ a else res
        let b := b >>> 1
        let a := a <<< 1
        let a := if a &&& UInt16.ofNat 0x10000 ≠ 0 then a ^^^ UInt16.ofNat gf16Poly else a
        gf16MulLoop fuel a b res

/-- Sixteen iterations empty a 16-bit multiplier. -/
def gf16Mul (a b : UInt16) : UInt16 := gf16MulLoop 16 a b 0

def gf16PowLoop : ℕ → UInt16 → UInt32 → UInt16 → UInt16
  | 0, _, _, result => result
  | fuel + 1, x, power, result =>
      if power = 0 then result
      else
        let result := if power &&& 1 ≠ 0 then gf16Mul result x else result
        gf16PowLoop fuel (gf16Mul x x) (power >>> 1) result

def gf16Pow (x : UInt16) (power : UInt32) : UInt16 := gf16PowLoop 32 x power 1

/-- The GF(2^16) operations an encoder or decoder runs on.  `inv` is only asked for nonzero
words. -/
structure Gf16Arith where
  mul : UInt16 → UInt16 → UInt16
  inv : UInt16 → UInt16

def gf16Arith : Gf16Arith where
  mul := gf16Mul
  inv x := gf16Pow x (0x10000 - 2)

def Gf16Arith.gf16Inv (F : Gf16Arith) (x : UInt16) : Checked UInt16 :=
  if x = 0 then .error .inverseOfZero else .ok (F.inv x)

def Gf16Arith.gf16MulAdd (F : Gf16Arith) (a b c : UInt16) : UInt16 := F.mul a b ^^^ c

end QuicFuscate.Fec
