import Mathlib.LinearAlgebra.Matrix.Charpoly.Coeff
import Mathlib.LinearAlgebra.Matrix.NonsingularInverse
import Mathlib.LinearAlgebra.Matrix.ToLinearEquiv
import QuicFuscate.Framework.ShortestRecurrence

/-!
# The inverse as a polynomial in the matrix

If a polynomial with nonzero constant coefficient annihilates an invertible matrix, its inverse is a
combination of powers.  For a polynomial that does not, the combination is off by exactly what the
polynomial leaves of the solution, entry by entry.

The numbers `uᵀ Aᵗ v` follow the recurrence of the characteristic polynomial, so a shortest one has at
most the size of the matrix as its order.
-/

namespace QuicFuscate.Framework

open Finset Matrix

variable {K m q : Type} [Field K] [Fintype m] [DecidableEq m]

/-- The value at `A` of the polynomial with coefficients `c 0, …, c (n - 1)`. -/
def polyAt (c : ℕ → K) (n : ℕ) (A : Matrix m m K) : Matrix m m K := ∑ i ∈ range n, c i • A ^ i

/-- The combination of powers that stands for `-A⁻¹` when the polynomial vanishes at `A`. -/
def powerQuotient (c : ℕ → K) (n : ℕ) (A : Matrix m m K) : Matrix m m K :=
  ∑ i ∈ range n, (c (i + 1) * (c 0)⁻¹) • A ^ i

theorem powerQuotient_congr {c c' : ℕ → K} {n : ℕ} (h : ∀ p < n + 1, c p = c' p) (A : Matrix m m K) :
    powerQuotient c n A = powerQuotient c' n A := by
  rw [powerQuotient, powerQuotient, h 0 (by omega)]
  apply sum_congr rfl
  intro i hi
  rw [h (i + 1) (Nat.succ_lt_succ (mem_range.mp hi))]

theorem powerQuotient_mul (c : ℕ → K) (n : ℕ) (A : Matrix m m K) :
    powerQuotient c n A * A = (c 0)⁻¹ • (polyAt c (n + 1) A - c 0 • 1) := by
  have hshift : polyAt c (n + 1) A - c 0 • 1 = ∑ i ∈ range n, c (i + 1) • A ^ (i + 1) := by
    rw [polyAt, sum_range_succ', pow_zero, add_sub_cancel_right]
  rw [hshift, powerQuotient, sum_mul, smul_sum]
  refine sum_congr rfl fun i _ => ?_
  rw [smul_mul_assoc, ← pow_succ, smul_smul, mul_comm]

theorem powerQuotient_eq {c : ℕ → K} (hc : c 0 ≠ 0) (n : ℕ) {A : Matrix m m K} (hA : IsUnit A.det) :
    powerQuotient c n A = (c 0)⁻¹ • (polyAt c (n + 1) A * A⁻¹) - A⁻¹ := by
  calc powerQuotient c n A
      = powerQuotient c n A * A * A⁻¹ := (Matrix.mul_nonsing_inv_cancel_right A _ hA).symm
    _ = (c 0)⁻¹ • (polyAt c (n + 1) A * A⁻¹) - A⁻¹ := by
        rw [powerQuotient_mul, smul_mul_assoc, sub_mul, smul_sub, smul_mul_assoc, one_mul, smul_smul,
          inv_mul_cancel₀ hc, one_smul]

theorem powerQuotient_mul_add {c : ℕ → K} (hc : c 0 ≠ 0) (n : ℕ) {A : Matrix m m K} (hA : IsUnit A.det)
    (B : Matrix m q K) :
    powerQuotient c n A * B + A⁻¹ * B = (c 0)⁻¹ • (polyAt c (n + 1) A * (A⁻¹ * B)) := by
  rw [powerQuotient_eq hc n hA, ← Matrix.add_mul, sub_add_cancel, Matrix.smul_mul, Matrix.mul_assoc]

theorem powerQuotient_entry_iff {c : ℕ → K} (hc : c 0 ≠ 0) (n : ℕ) {A : Matrix m m K} (hA : IsUnit A.det)
    (B : Matrix m q K) (i : m) (j : q) :
    (powerQuotient c n A * B) i j = -(A⁻¹ * B) i j ↔ (polyAt c (n + 1) A * (A⁻¹ * B)) i j = 0 := by
  have hentry := congrFun (congrFun (powerQuotient_mul_add hc n hA B) i) j
  rw [Matrix.add_apply, Matrix.smul_apply] at hentry
  rw [← add_eq_zero_iff_eq_neg, hentry, smul_eq_zero_iff_right (inv_ne_zero hc)]

theorem polyAt_mul_apply (c : ℕ → K) (n : ℕ) (A : Matrix m m K) (X : Matrix m q K) (i : m) (j : q) :
    (polyAt c n A * X) i j = ∑ t ∈ range n, c t * (A ^ t * X) i j := by
  rw [polyAt, Matrix.sum_mul, Matrix.sum_apply]
  apply sum_congr rfl
  intro t _
  rw [Matrix.smul_mul, Matrix.smul_apply, smul_eq_mul]

theorem polyAt_congr {c c' : ℕ → K} {n : ℕ} (h : ∀ p < n, c p = c' p) (A : Matrix m m K) :
    polyAt c n A = polyAt c' n A := by
  apply sum_congr rfl
  intro i hi
  rw [h i (mem_range.mp hi)]

/-! ## Krylov sequences -/

def krylov (A : Matrix m m K) (u v : m → K) (t : ℕ) : K := u ⬝ᵥ (A ^ t).mulVec v

theorem krylov_sum (A : Matrix m m K) (u v : m → K) (c : ℕ → K) (n t : ℕ) :
    ∑ p ∈ range n, c p * krylov A u v (t + p) = u ⬝ᵥ (A ^ t * polyAt c n A).mulVec v := by
  rw [polyAt, mul_sum, Matrix.sum_mulVec, dotProduct_sum]
  apply sum_congr rfl
  intro p _
  rw [krylov, mul_smul_comm, ← pow_add, Matrix.smul_mulVec, dotProduct_smul, smul_eq_mul]

theorem polyAt_charpoly (A : Matrix m m K) : polyAt A.charpoly.coeff (Fintype.card m + 1) A = 0 := by
  have haeval := Polynomial.aeval_eq_sum_range (R := K) (p := A.charpoly) A
  rw [Matrix.charpoly_natDegree_eq_dim, Matrix.aeval_self_charpoly] at haeval
  exact haeval.symm

theorem krylov_generates (A : Matrix m m K) (u v : m → K) (n : ℕ) :
    Generates (krylov A u v) (fun j => A.charpoly.coeff (Fintype.card m - j)) (Fintype.card m) n := by
  refine ⟨?_, fun i hi _ => ?_⟩
  · have hmonic := A.charpoly_monic.coeff_natDegree
    rwa [Matrix.charpoly_natDegree_eq_dim] at hmonic
  · have hsum := krylov_sum A u v A.charpoly.coeff (Fintype.card m + 1) (i - Fintype.card m)
    rw [polyAt_charpoly, mul_zero, Matrix.zero_mulVec, dotProduct_zero, ← sum_range_reflect] at hsum
    rw [residualAt, ← hsum]
    apply sum_congr rfl
    intro j hj
    have hj := mem_range.mp hj
    rw [show Fintype.card m + 1 - 1 - j = Fintype.card m - j by omega,
      show i - Fintype.card m + (Fintype.card m - j) = i - j by omega]

end QuicFuscate.Framework
