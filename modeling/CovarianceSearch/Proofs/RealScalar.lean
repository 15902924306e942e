import CovarianceSearch.Scalar
import Mathlib

namespace CovarianceSearch

noncomputable instance : Scalar ℝ where
  decLt := Real.decidableLT
  ofNat n := n
  isFinite _ := true
  isNaN _ := false
  abs := abs
  sqrt := Real.sqrt
  exp := Real.exp
  log := Real.log
  sin := Real.sin
  cos := Real.cos
  acos := Real.arccos
  pow := (· ^ ·)
  pi := Real.pi
  sqrtThree := Real.sqrt 3
  sqrtFive := Real.sqrt 5
  logTwoPi := Real.log (2 * Real.pi)

namespace Scalar

@[simp] theorem zero_real : (zero : ℝ) = 0 := Nat.cast_zero

@[simp] theorem one_real : (one : ℝ) = 1 := Nat.cast_one

@[simp] theorem half_real : (half : ℝ) = 2⁻¹ := by
  change ((1 : ℕ) : ℝ) / ((2 : ℕ) : ℝ) = 2⁻¹
  norm_num

@[simp] theorem two_real : (two : ℝ) = 2 := Nat.cast_ofNat

@[simp] theorem ofNat_real (n : ℕ) : (Scalar.ofNat n : ℝ) = n := rfl

@[simp] theorem abs_real (x : ℝ) : Scalar.abs x = |x| := rfl

@[simp] theorem exp_real (x : ℝ) : Scalar.exp x = Real.exp x := rfl

@[simp] theorem log_real (x : ℝ) : Scalar.log x = Real.log x := rfl

@[simp] theorem logTwoPi_real : (logTwoPi : ℝ) = Real.log (2 * Real.pi) := rfl

@[simp] theorem sin_real (x : ℝ) : Scalar.sin x = Real.sin x := rfl

@[simp] theorem cos_real (x : ℝ) : Scalar.cos x = Real.cos x := rfl

@[simp] theorem pow_real (x y : ℝ) : Scalar.pow x y = x ^ y := rfl

theorem sum_real (xs : List ℝ) : sum xs = xs.sum := by
  have hzero : (-zero : ℝ) = 0 := by
    rw [zero_real]
    exact neg_zero
  rw [sum, hzero]
  exact List.sum_eq_foldl.symm

theorem product_real (xs : List ℝ) : product xs = xs.prod := by
  rw [product, one_real]
  exact List.prod_eq_foldl.symm

/-- The accumulator times the power that is left stays the same. -/
theorem powersInto_real (acc a : ℝ) (n : ℕ) : powersInto acc a n = acc * a ^ n := by
  induction n using Nat.strongRecOn generalizing acc a with
  | ind n ih =>
    rw [powersInto]
    by_cases hn : n = 0
    · rw [if_pos hn, hn, pow_zero, mul_one]
    · have hdiv := Nat.div_add_mod n 2
      rw [if_neg hn, ih (n / 2) (by omega), ← sq, ← pow_mul]
      by_cases hodd : n % 2 = 1
      · rw [if_pos hodd, mul_assoc, ← pow_succ', ← hodd, hdiv]
      · have heven : 2 * (n / 2) = n := by omega
        rw [if_neg hodd, heven]

theorem powInt_real (a : ℝ) (n : ℤ) : powInt a n = a ^ n := by
  rw [powInt, powersInto_real, one_real, one_mul]
  by_cases h : n < 0
  · rw [if_pos h, one_div, ← zpow_natCast, Int.ofNat_natAbs_of_nonpos h.le, zpow_neg, inv_inv]
  · rw [if_neg h, ← zpow_natCast, Int.natAbs_of_nonneg (not_lt.1 h)]

end Scalar

end CovarianceSearch
