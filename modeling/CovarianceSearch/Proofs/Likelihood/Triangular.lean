import CovarianceSearch.Proofs.Likelihood.Factor

namespace CovarianceSearch.Likelihood

open Scalar SquareMatrix

variable {n : ℕ} {A : Matrix (Fin n) (Fin n) ℝ} {l : SquareMatrix ℝ n} {y z alpha : Vector ℝ n}

theorem get_putUnknown (z : Vector ℝ n) (i : Fin n) (v : ℝ) (k : Fin n) :
    (putUnknown z i v).get k = if k = i then v else z.get k := by
  simp only [putUnknown, Vector.get_eq_getElem, Vector.getElem_set, Fin.val_inj, eq_comm]

theorem solveRow?_eq (l : SquareMatrix ℝ n) (y z : Vector ℝ n) (i : Fin n) :
    solveRow? l y.toList z i = some (putUnknown z i
      ((y.get i - ∑ k ∈ Finset.Iio i, l.entry i k * z.get k) * (l.entry i i)⁻¹)) := by
  have htarget : y.toList[i.val]? = some (y.get i) := by
    rw [List.getElem?_eq_getElem (by simp)]
    rfl
  rw [solveRow?, htarget]
  change some _ = some _
  rw [subtractProducts_real, sum_before]
  exact congrArg (fun v ↦ some (putUnknown z i v)) (div_eq_mul_inv _ _)

theorem solveColumn_eq (l : SquareMatrix ℝ n) (z alpha : Vector ℝ n) (i : Fin n) :
    solveColumn l z alpha i = putUnknown alpha i
      ((z.get i - ∑ k ∈ Finset.Ioi i, l.entry k i * alpha.get k) * (l.entry i i)⁻¹) := by
  rw [solveColumn, subtractProducts_real, sum_behind]
  exact congrArg (putUnknown alpha i) (div_eq_mul_inv _ _)

def SolvesBefore (l : SquareMatrix ℝ n) (y : Vector ℝ n) (i : ℕ) (z : Vector ℝ n) : Prop :=
  ∀ r : Fin n, r < i → ∑ k ∈ Finset.Iic r, l.entry r k * z.get k = y.get r

def SolvesFrom (l : SquareMatrix ℝ n) (z : Vector ℝ n) (i : ℕ) (alpha : Vector ℝ n) : Prop :=
  ∀ c : Fin n, i ≤ c → ∑ k ∈ Finset.Ici c, l.entry k c * alpha.get k = z.get c

theorem SolvesBefore.step {i : Fin n} (h : SolvesBefore l y i z) (hl : l.entry i i ≠ 0) :
    SolvesBefore l y (i + 1) (putUnknown z i
      ((y.get i - ∑ k ∈ Finset.Iio i, l.entry i k * z.get k) * (l.entry i i)⁻¹)) := by
  intro r hr
  have hkept (v : ℝ) (s : Finset (Fin n)) (hs : ∀ k ∈ s, k < i) :
      ∑ k ∈ s, l.entry r k * (putUnknown z i v).get k = ∑ k ∈ s, l.entry r k * z.get k := by
    apply Finset.sum_congr rfl
    intro k hk
    rw [get_putUnknown, if_neg (hs k hk).ne]
  rcases (Nat.le_of_lt_succ hr).lt_or_eq with hlt | heq
  · rw [hkept _ _ fun k hk ↦ (Finset.mem_Iic.1 hk).trans_lt hlt]
    exact h r hlt
  · obtain rfl : r = i := Fin.ext heq
    rw [sum_Iic_eq, hkept _ _ fun k hk ↦ Finset.mem_Iio.1 hk, get_putUnknown, if_pos rfl,
      mul_comm, inv_mul_cancel_right₀ hl]
    ring

theorem SolvesFrom.step {i : Fin n} (h : SolvesFrom l z (i + 1) alpha) (hl : l.entry i i ≠ 0) :
    SolvesFrom l z i (solveColumn l z alpha i) := by
  intro c hc
  have hkept (v : ℝ) (s : Finset (Fin n)) (hs : ∀ k ∈ s, i < k) :
      ∑ k ∈ s, l.entry k c * (putUnknown alpha i v).get k = ∑ k ∈ s, l.entry k c * alpha.get k := by
    apply Finset.sum_congr rfl
    intro k hk
    rw [get_putUnknown, if_neg (hs k hk).ne']
  rw [solveColumn_eq]
  rcases hc.lt_or_eq with hlt | heq
  · have hic : i < c := hlt
    rw [hkept _ _ fun k hk ↦ hic.trans_le (Finset.mem_Ici.1 hk)]
    exact h c hlt
  · obtain rfl : i = c := Fin.ext heq
    rw [sum_Ici_eq, hkept _ _ fun k hk ↦ Finset.mem_Ioi.1 hk, get_putUnknown, if_pos rfl,
      mul_comm, inv_mul_cancel_right₀ hl]
    ring

theorem IsFactorOf.mulVec_eq (h : IsFactorOf l A) (hz : SolvesBefore l y n z) :
    l.toMatrix.mulVec z.get = y.get := by
  funext r
  rw [← hz r r.isLt]
  apply sum_eq_sum_Iic
  intro k hk
  change l.entry r k * z.get k = 0
  rw [h.above r k hk, zero_mul]

theorem IsFactorOf.transpose_mulVec_eq (h : IsFactorOf l A) (halpha : SolvesFrom l z 0 alpha) :
    l.toMatrix.transpose.mulVec alpha.get = z.get := by
  funext c
  rw [← halpha c (Nat.zero_le c)]
  apply sum_eq_sum_Ici
  intro k hk
  change l.entry k c * alpha.get k = 0
  rw [h.above k c hk, zero_mul]

theorem IsFactorOf.exists_solveLower? (h : IsFactorOf l A) (y : Vector ℝ n) :
    ∃ z, solveLower? l y.toList = some z ∧ SolvesBefore l y n z := by
  rw [solveLower?, ← take_finRange_self]
  refine exists_foldlM_take ?_ le_rfl fun r hr ↦ absurd hr (Nat.not_lt_zero r)
  intro i z _ hz
  exact ⟨_, solveRow?_eq l y z i, hz.step (h.positive i).ne'⟩

theorem IsFactorOf.solvesFrom_solveUpper (h : IsFactorOf l A) (z : Vector ℝ n) :
    SolvesFrom l z 0 (solveUpper l z) := by
  rw [solveUpper, List.foldl_reverse]
  refine foldr_drop_induction (P := SolvesFrom l z) ?_ ?_ (Nat.zero_le n)
  · intro i alpha halpha
    exact halpha.step (h.positive i).ne'
  · intro c hc
    exact absurd c.isLt hc.not_gt

end CovarianceSearch.Likelihood
