import CovarianceSearch.Kernel
import CovarianceSearch.Proofs.BaseKernel
import CovarianceSearch.Proofs.RealScalar

namespace CovarianceSearch

theorem BaseKernel.ofName?_of_lt {n : ℕ} (hpos : 0 < n) (hn : n < 2 ^ 32) :
    ofName? ("polynomial" ++ toString n) = some (.polynomial (UInt32.ofNat n)) := by
  have hdegree : (UInt32.ofNat n).toNat = n := by
    rw [UInt32.toNat_ofNat']
    exact Nat.mod_eq_of_lt hn
  have hne : UInt32.ofNat n ≠ 0 := by
    intro h
    rw [h] at hdegree
    exact hpos.ne hdegree
  have hname := (spells_polynomialName hne).ofName?_eq
  rwa [hdegree] at hname

namespace Kernel

variable {degree : UInt32}

/-- As a word with a sign, a degree from `2 ^ 31` on is negative. -/
theorem toInt_toInt32 (degree : UInt32) : degree.toInt32.toInt =
    if degree.toNat < 2 ^ 31 then (degree.toNat : ℤ) else degree.toNat - 2 ^ 32 := by
  have hbits : degree.toBitVec.toNat = degree.toNat := rfl
  change degree.toBitVec.toInt = _
  rw [BitVec.toInt_eq_toNat_cond, hbits]
  split <;> split <;> omega

theorem covariance_polynomial (degree : UInt32) (variance offset a b : ℝ) (same : Bool) :
    covariance (.leaf ⟨.polynomial degree, [variance, offset]⟩) a b same =
      (variance * a * b + offset) ^ degree.toInt32.toInt :=
  Scalar.powInt_real _ _

theorem covariance_polynomial_of_lt (h : degree.toNat < 2 ^ 31) (variance offset a b : ℝ)
    (same : Bool) : covariance (.leaf ⟨.polynomial degree, [variance, offset]⟩) a b same =
      (variance * a * b + offset) ^ degree.toNat := by
  rw [covariance_polynomial, toInt_toInt32, if_pos h, zpow_natCast]

theorem covariance_polynomial_of_le (h : 2 ^ 31 ≤ degree.toNat) (variance offset a b : ℝ)
    (same : Bool) : covariance (.leaf ⟨.polynomial degree, [variance, offset]⟩) a b same =
      ((variance * a * b + offset) ^ (2 ^ 32 - degree.toNat))⁻¹ := by
  have hlt : degree.toNat < 2 ^ 32 := degree.toNat_lt_size
  have hexponent : (degree.toNat : ℤ) - 2 ^ 32 = -((2 ^ 32 - degree.toNat : ℕ) : ℤ) := by omega
  rw [covariance_polynomial, toInt_toInt32, if_neg (Nat.not_lt.2 h), hexponent, zpow_neg,
    zpow_natCast]

/-- Powers of two are at least one, and their reciprocals at most one. -/
theorem covariance_polynomial_ne (h : 2 ^ 31 ≤ degree.toNat) (same : Bool) :
    covariance (.leaf ⟨.polynomial degree, [1, 1]⟩) 1 1 same ≠
      ((1 : ℝ) * 1 * 1 + 1) ^ degree.toNat := by
  have hbase : (1 : ℝ) < 1 * 1 * 1 + 1 := by norm_num
  have hpower : (1 : ℝ) < (1 * 1 * 1 + 1) ^ degree.toNat := one_lt_pow₀ hbase (by omega)
  have hreciprocal : (((1 : ℝ) * 1 * 1 + 1) ^ (2 ^ 32 - degree.toNat))⁻¹ ≤ 1 :=
    inv_le_one_of_one_le₀ (one_le_pow₀ hbase.le)
  rw [covariance_polynomial_of_le h]
  exact (hreciprocal.trans_lt hpower).ne

/-- A polynomial is the power that its name says exactly where its degree is below `2 ^ 31`. From
there on it is the reciprocal of the power by what the degree lacks of `2 ^ 32`. -/
theorem polynomial_is_power_of_degree_iff {token : String}
    (htoken : BaseKernel.ofName? token = some (.polynomial degree)) :
    (∀ n, 0 < n → n < 2 ^ 32 →
      BaseKernel.ofName? ("polynomial" ++ toString n) = some (.polynomial (UInt32.ofNat n))) ∧
    0 < degree.toNat ∧
    ((∀ (variance offset a b : ℝ) (same : Bool),
      covariance (.leaf ⟨.polynomial degree, [variance, offset]⟩) a b same =
        (variance * a * b + offset) ^ degree.toNat) ↔ degree.toNat < 2 ^ 31) ∧
    (2 ^ 31 ≤ degree.toNat → ∀ (variance offset a b : ℝ) (same : Bool),
      variance * a * b + offset ≠ 0 →
        covariance (.leaf ⟨.polynomial degree, [variance, offset]⟩) a b same =
          ((variance * a * b + offset) ^ (2 ^ 32 - degree.toNat))⁻¹) := by
  have hne : degree ≠ 0 := BaseKernel.isNamed_of_ofName? htoken
  refine ⟨fun n ↦ BaseKernel.ofName?_of_lt, ?_, ⟨fun h ↦ ?_, fun h ↦ ?_⟩, ?_⟩
  · exact Nat.pos_of_ne_zero fun hzero ↦ hne (UInt32.toNat_inj.1 hzero)
  · by_contra hdegree
    exact covariance_polynomial_ne (Nat.not_lt.1 hdegree) false (h 1 1 1 1 false)
  · exact covariance_polynomial_of_lt h
  · intro h variance offset a b same _
    exact covariance_polynomial_of_le h variance offset a b same

theorem polynomial_is_power_of_degree_iff_greatest :
    BaseKernel.ofName? "polynomial4294967295" = some (.polynomial 4294967295) ∧
      covariance (.leaf ⟨.polynomial 4294967295, [1, 1]⟩) 1 (-2⁻¹ : ℝ) false = 2 ∧
      ¬ (∀ (variance offset a b : ℝ) (same : Bool),
        covariance (.leaf ⟨.polynomial 4294967295, [variance, offset]⟩) a b same =
          (variance * a * b + offset) ^ 4294967295) := by
  have htoken : BaseKernel.ofName? "polynomial4294967295" = some (.polynomial 4294967295) := by
    decide
  obtain ⟨-, -, hpower, hreciprocal⟩ := polynomial_is_power_of_degree_iff htoken
  have hdegree : (4294967295 : UInt32).toNat = 4294967295 := rfl
  rw [hdegree] at hpower hreciprocal
  refine ⟨htoken, ?_, fun h ↦ absurd (hpower.1 h) (by norm_num)⟩
  rw [hreciprocal (by norm_num) 1 1 1 (-2⁻¹) false (by norm_num)]
  norm_num

end Kernel

end CovarianceSearch
