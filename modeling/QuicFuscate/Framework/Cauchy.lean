import Mathlib.LinearAlgebra.Lagrange

/-!
# Cauchy rows

A Cauchy row lists `1 / (x - y)` for one point `y` and many points `x`.  A combination of rows
with distinct points `y` that vanishes at as many points `x` is the zero combination, because
clearing denominators leaves a polynomial with more roots than its degree allows.
-/

namespace QuicFuscate.Framework

open Polynomial

variable {K ι : Type} [Field K] [DecidableEq ι]

private noncomputable def cauchyNumerator (Y : Finset ι) (y w : ι → K) : K[X] :=
  ∑ i ∈ Y, C (w i) * ∏ j ∈ Y.erase i, (X - C (y j))

private theorem cauchyNumerator_degree_lt (Y : Finset ι) (y w : ι → K) :
    (cauchyNumerator Y y w).degree < Y.card := by
  rcases Y.eq_empty_or_nonempty with rfl | hY
  · simp [cauchyNumerator]
  apply (Polynomial.degree_sum_le _ _).trans_lt
  rw [Finset.sup_lt_iff (WithBot.bot_lt_coe _)]
  intro i hi
  have hdeg : (∏ j ∈ Y.erase i, (X - C (y j))).degree = ((Y.card - 1 : ℕ) : WithBot ℕ) := by
    rw [Polynomial.degree_prod]
    simp [Finset.card_erase_of_mem hi]
  calc (C (w i) * ∏ j ∈ Y.erase i, (X - C (y j))).degree
      ≤ 0 + (∏ j ∈ Y.erase i, (X - C (y j))).degree :=
        (Polynomial.degree_mul_le _ _).trans (add_le_add Polynomial.degree_C_le le_rfl)
    _ = (∏ j ∈ Y.erase i, (X - C (y j))).degree := zero_add _
    _ = ((Y.card - 1 : ℕ) : WithBot ℕ) := hdeg
    _ < Y.card := by
        have := hY.card_pos
        exact_mod_cast Nat.sub_lt this one_pos

private theorem cauchyNumerator_eval (Y : Finset ι) (y w : ι → K) (x : K)
    (hx : ∀ i ∈ Y, x ≠ y i) :
    (cauchyNumerator Y y w).eval x = (∏ j ∈ Y, (x - y j)) * ∑ i ∈ Y, w i * (x - y i)⁻¹ := by
  rw [cauchyNumerator, Polynomial.eval_finsetSum, Finset.mul_sum]
  apply Finset.sum_congr rfl
  intro i hi
  have hne : x - y i ≠ 0 := sub_ne_zero.mpr (hx i hi)
  rw [Polynomial.eval_mul, Polynomial.eval_C, Polynomial.eval_prod, ← Finset.mul_prod_erase Y _ hi]
  simp only [Polynomial.eval_sub, Polynomial.eval_X, Polynomial.eval_C]
  field_simp

private theorem cauchyNumerator_eval_point (Y : Finset ι) (y w : ι → K) (i : ι) (hi : i ∈ Y) :
    (cauchyNumerator Y y w).eval (y i) = w i * ∏ j ∈ Y.erase i, (y i - y j) := by
  rw [cauchyNumerator, Polynomial.eval_finsetSum, Finset.sum_eq_single i]
  · simp [Polynomial.eval_prod]
  · intro b _ hbi
    have hmem : i ∈ Y.erase b := Finset.mem_erase.mpr ⟨Ne.symm hbi, hi⟩
    rw [Polynomial.eval_mul, Polynomial.eval_prod, Finset.prod_eq_zero hmem (by simp), mul_zero]
  · intro h
    exact (h hi).elim

/-- A combination of Cauchy rows at distinct points `y` that vanishes at no fewer points `x`
has zero coefficients. -/
theorem cauchy_combination_eq_zero (Y : Finset ι) (y w : ι → K) (xs : Finset K)
    (hy : Set.InjOn y Y) (hcard : Y.card ≤ xs.card) (hne : ∀ x ∈ xs, ∀ i ∈ Y, x ≠ y i)
    (hzero : ∀ x ∈ xs, ∑ i ∈ Y, w i * (x - y i)⁻¹ = 0) :
    ∀ i ∈ Y, w i = 0 := by
  have hP : cauchyNumerator Y y w = 0 := by
    apply Polynomial.eq_zero_of_degree_lt_of_eval_finset_eq_zero xs
    · exact (cauchyNumerator_degree_lt Y y w).trans_le (by exact_mod_cast hcard)
    · intro x hx
      rw [cauchyNumerator_eval Y y w x (hne x hx), hzero x hx, mul_zero]
  intro i hi
  have heval := cauchyNumerator_eval_point Y y w i hi
  rw [hP, Polynomial.eval_zero] at heval
  have hprod : ∏ j ∈ Y.erase i, (y i - y j) ≠ 0 := by
    apply Finset.prod_ne_zero_iff.mpr
    intro j hj h
    have hij : i = j := hy hi (Finset.mem_of_mem_erase hj) (sub_eq_zero.mp h)
    exact (Finset.ne_of_mem_erase hj) hij.symm
  exact (mul_eq_zero.mp heval.symm).resolve_right hprod

end QuicFuscate.Framework
