import CovarianceSearch.Kernel
import CovarianceSearch.Proofs.RealScalar

namespace CovarianceSearch.Component

structure IsPositive (f : Component ℝ) : Prop where
  length : f.params.length = f.kernel.spec.parameters.length
  pos : ∀ v ∈ f.params, 0 < v

variable {f g : Component ℝ}

theorem IsPositive.variance_pos (h : f.IsPositive) : 0 < f.variance := by
  have hne : f.params ≠ [] := by
    intro hnil
    have hlength := h.length
    rw [hnil] at hlength
    cases hf : f.kernel <;> rw [hf] at hlength <;> cases hlength
  obtain ⟨v, vs, hv⟩ := List.exists_cons_of_ne_nil hne
  have hvariance : f.variance = v := by
    rw [variance, param, hv]
    rfl
  rw [hvariance]
  exact h.pos v (hv ▸ List.mem_cons_self)

@[simp] theorem scaledDistance_self (f : Component ℝ) (a : ℝ) : f.scaledDistance a a = 0 := by
  rw [scaledDistance, Scalar.abs_real]
  simp

theorem covariance_self (hf : f.kernel.isStationary = true) (a : ℝ) :
    f.covariance a a true = f.variance := by
  obtain ⟨k, params⟩ := f
  cases k with
  | linear => cases hf
  | polynomial degree => cases hf
  | arcCosine => cases hf
  | _ => simp [covariance]

theorem isPositive_white_iff {params : List ℝ} :
    IsPositive ⟨.white, params⟩ ↔ ∃ v, 0 < v ∧ params = [v] := by
  constructor
  · rintro ⟨hlength, hpos⟩
    obtain ⟨v, rfl⟩ := List.length_eq_one_iff.1 hlength
    exact ⟨v, hpos v (by simp), rfl⟩
  · rintro ⟨v, hv, rfl⟩
    exact ⟨rfl, by simpa using hv⟩

theorem isPositive_rbf_iff {params : List ℝ} :
    IsPositive ⟨.rbf, params⟩ ↔ ∃ v l, 0 < v ∧ 0 < l ∧ params = [v, l] := by
  constructor
  · rintro ⟨hlength, hpos⟩
    obtain ⟨v, l, rfl⟩ := List.length_eq_two.1 hlength
    exact ⟨v, l, hpos v (by simp), hpos l (by simp), rfl⟩
  · rintro ⟨v, l, hv, hl, rfl⟩
    exact ⟨rfl, by simpa using ⟨hv, hl⟩⟩

theorem covariance_white (v a b : ℝ) (same : Bool) :
    covariance ⟨.white, [v]⟩ a b same = if same then v else 0 := by
  have hvariance : variance ⟨.white, [v]⟩ = v := rfl
  simp only [covariance, hvariance, Scalar.zero_real]

theorem covariance_rbf (v l a b : ℝ) (same : Bool) :
    covariance ⟨.rbf, [v, l]⟩ a b same = v * Real.exp (-2⁻¹ * (|a - b| * l⁻¹) ^ 2) := by
  have hvariance : variance ⟨.rbf, [v, l]⟩ = v := rfl
  have hdistance : scaledDistance ⟨.rbf, [v, l]⟩ a b = |a - b| * l⁻¹ := div_eq_mul_inv _ _
  simp only [covariance, hvariance, hdistance, Scalar.exp_real, Scalar.half_real]
  rw [mul_assoc, ← sq]

/-- The product of two RBF covariances is one whose squared lengthscale is half the harmonic mean of
the squared lengthscales. -/
theorem covariance_rbf_mul {v w l m : ℝ} (hl : 0 < l) (hm : 0 < m) (a b : ℝ) (same : Bool) :
    covariance ⟨.rbf, [v, l]⟩ a b same * covariance ⟨.rbf, [w, m]⟩ a b same =
      covariance ⟨.rbf, [v * w, (√((l ^ 2)⁻¹ + (m ^ 2)⁻¹))⁻¹]⟩ a b same := by
  have hscale : √((l ^ 2)⁻¹ + (m ^ 2)⁻¹) ^ 2 = (l ^ 2)⁻¹ + (m ^ 2)⁻¹ :=
    Real.sq_sqrt (by positivity)
  have hexponent : -2⁻¹ * (|a - b| * (√((l ^ 2)⁻¹ + (m ^ 2)⁻¹))⁻¹⁻¹) ^ 2 =
      -2⁻¹ * (|a - b| * l⁻¹) ^ 2 + -2⁻¹ * (|a - b| * m⁻¹) ^ 2 := by
    rw [inv_inv, mul_pow, hscale]
    ring
  rw [covariance_rbf, covariance_rbf, covariance_rbf, hexponent, Real.exp_add]
  ring

end CovarianceSearch.Component
