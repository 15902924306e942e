import CovarianceSearch.Proofs.Kernel.Component
import CovarianceSearch.Proofs.Likelihood.Triangular

namespace CovarianceSearch.Likelihood

open Scalar SquareMatrix

variable {n : ℕ} {A : Matrix (Fin n) (Fin n) ℝ} {a l : SquareMatrix ℝ n} {y z alpha : Vector ℝ n}

/-- The loss at `y` under the normal distribution with mean zero and covariances `A`. -/
noncomputable def gaussianLoss (A : Matrix (Fin n) (Fin n) ℝ) (y : Fin n → ℝ) : ℝ :=
  ((2 : ℕ) : ℝ)⁻¹ * (y ⬝ᵥ A⁻¹.mulVec y + Real.log A.det + n * Real.log ((2 : ℕ) * Real.pi))

theorem IsFactorOf.log_det_eq (h : IsFactorOf l A) :
    Real.log A.det = (∑ i, Real.log (l.entry i i)) * 2 := by
  rw [← h.product, Matrix.det_mul, Matrix.det_transpose,
    Real.log_mul h.det_pos.ne' h.det_pos.ne', h.det_eq,
    Real.log_prod fun i _ ↦ (h.positive i).ne', mul_two]

theorem IsFactorOf.inv_mulVec_eq (h : IsFactorOf l A) (hz : SolvesBefore l y n z)
    (halpha : SolvesFrom l z 0 alpha) : A⁻¹.mulVec y.get = alpha.get := by
  have hsolved : A.mulVec alpha.get = y.get := by
    rw [← h.product, ← Matrix.mulVec_mulVec, h.transpose_mulVec_eq halpha, h.mulVec_eq hz]
  have hdet : IsUnit A.det := h.posDef.det_pos.ne'.isUnit
  rw [← hsolved, Matrix.mulVec_mulVec, Matrix.nonsing_inv_mul _ hdet, Matrix.one_mulVec]

theorem sum_zipWith (y alpha : Vector ℝ n) :
    (List.zipWith (· * ·) y.toList alpha.toList).sum = y.get ⬝ᵥ alpha.get := by
  have hmap : List.zipWith (· * ·) y.toList alpha.toList =
      (List.finRange n).map fun i ↦ y.get i * alpha.get i := by
    apply List.ext_getElem (by simp)
    intro i h h'
    simp [Vector.get_eq_getElem]
  rw [hmap, ← Fin.sum_univ_def]
  rfl

theorem IsFactorOf.lossOfFactor_eq (h : IsFactorOf l A) (hz : SolvesBefore l y n z) :
    lossOfFactor l y.toList z = gaussianLoss A y.get := by
  have hsolve := h.inv_mulVec_eq hz (h.solvesFrom_solveUpper z)
  rw [lossOfFactor, gaussianLoss, sum_real, sum_real, sum_zipWith, hsolve, h.log_det_eq,
    Fin.sum_univ_def]
  simp

theorem lossOf_of_posDef (ha : a.toMatrix.PosDef) (y : Vector ℝ n) :
    lossOf a y.toList = .ok (gaussianLoss a.toMatrix y.get) := by
  obtain ⟨l, hl⟩ := exists_cholesky? ha
  have hfactor := isFactorOf_of_cholesky? (isSymm_of_posDef ha) hl
  obtain ⟨z, hz, hsolves⟩ := hfactor.exists_solveLower? y
  simp only [lossOf, hl, hz, hfactor.lossOfFactor_eq hsolves]
  exact if_pos rfl

theorem lossOf_of_not_posDef (hsymm : a.toMatrix.IsSymm) (ha : ¬ a.toMatrix.PosDef) (ys : List ℝ) :
    lossOf a ys = .error (.fit .notPositiveDefinite) := by
  have hnone : cholesky? a = none := by
    rw [Option.eq_none_iff_forall_not_mem]
    intro l hl
    exact ha (isFactorOf_of_cholesky? hsymm hl).posDef
  rw [lossOf, hnone]

theorem entry_foldl_put_diagonal {js : List (Fin n)} (hjs : js.Nodup) (noise : ℝ)
    (a : SquareMatrix ℝ n) (r c : Fin n) :
    (js.foldl (fun a i ↦ a.put i i (a.entry i i + noise)) a).entry r c =
      if r = c ∧ r ∈ js then a.entry r c + noise else a.entry r c := by
  induction js generalizing a with
  | nil => simp
  | cons j js ih =>
    obtain ⟨hj, hjs⟩ := List.nodup_cons.1 hjs
    rw [List.foldl_cons, ih hjs, entry_put]
    by_cases hr : r = j ∧ c = j
    · obtain ⟨rfl, rfl⟩ := hr
      simp [hj]
    · have hmem : r = c ∧ r ∈ j :: js ↔ r = c ∧ r ∈ js := by
        rw [List.mem_cons]
        constructor
        · rintro ⟨rfl, hmem⟩
          exact ⟨rfl, hmem.resolve_left fun h ↦ hr ⟨h, h⟩⟩
        · rintro ⟨rfl, hmem⟩
          exact ⟨rfl, .inr hmem⟩
      simp only [if_neg hr, hmem]

theorem toMatrix_covarianceMatrix (k : Kernel ℝ) (noise : ℝ) (xs : List ℝ) :
    (covarianceMatrix k noise xs).toMatrix = (gramMatrix k xs).toMatrix + noise • 1 := by
  ext r c
  simp only [toMatrix_apply, covarianceMatrix, Matrix.add_apply, Matrix.smul_apply,
    Matrix.one_apply]
  rw [entry_foldl_put_diagonal (List.nodup_finRange _)]
  simp only [List.mem_finRange, and_true]
  split_ifs <;> simp

theorem getElem?_flatMap {α β : Type} {f : α → List β} {m j : ℕ} (hf : ∀ a, (f a).length = m)
    (hj : j < m) (as : List α) (i : ℕ) :
    (as.flatMap f)[i * m + j]? = as[i]?.bind fun a ↦ (f a)[j]? := by
  induction as generalizing i with
  | nil => simp
  | cons a as ih =>
    rw [List.flatMap_cons]
    cases i with
    | zero => simp [List.getElem?_append_left, hf, hj]
    | succ i =>
      have hindex : (i + 1) * m + j = (f a).length + (i * m + j) := by
        rw [hf]
        ring
      rw [hindex, List.getElem?_append_right (Nat.le_add_right _ _), Nat.add_sub_cancel_left, ih]
      rfl

theorem entry_gramMatrix {R : Type} [Scalar R] (k : Kernel R) (xs : List R) (i j : Fin xs.length) :
    (gramMatrix k xs).entry i j =
      if j ≤ i then k.covariance xs[i] xs[j] (i = j) else k.covariance xs[j] xs[i] false := by
  have hentry : some ((gramMatrix k xs).entry i j) = (k.gram xs)[i * xs.length + j]? := by
    symm
    exact List.getElem?_eq_getElem (Nat.lt_of_lt_of_eq (position i j).isLt (k.length_gram xs).symm)
  rw [← Option.some_inj, hentry, Kernel.gram, getElem?_flatMap (by simp) j.isLt]
  simp [Fin.ext_iff]

theorem isSymm_gramMatrix (k : Kernel ℝ) (xs : List ℝ) : (gramMatrix k xs).toMatrix.IsSymm := by
  ext i j
  rw [Matrix.transpose_apply, toMatrix_apply, toMatrix_apply, entry_gramMatrix, entry_gramMatrix]
  rcases lt_trichotomy i j with hij | rfl | hji
  · rw [if_pos hij.le, if_neg hij.not_ge, decide_eq_false hij.ne']
  · rfl
  · rw [if_neg hji.not_ge, if_pos hji.le, decide_eq_false hji.ne']

theorem isSymm_covarianceMatrix (k : Kernel ℝ) (noise : ℝ) (xs : List ℝ) :
    (covarianceMatrix k noise xs).toMatrix.IsSymm := by
  rw [toMatrix_covarianceMatrix]
  exact (isSymm_gramMatrix k xs).add (Matrix.isSymm_one.smul noise)

theorem negativeLogLikelihood_of_ne_nil {xs : List ℝ} (hxs : xs ≠ []) (k : Kernel ℝ) (noise : ℝ)
    (ys : List ℝ) :
    negativeLogLikelihood k noise xs ys = lossOf (covarianceMatrix k noise xs) ys := by
  rw [negativeLogLikelihood, if_neg (by simpa using hxs)]

/-- In exact arithmetic, the factor in place of a symmetric matrix is its Cholesky factor, which it
has if it is positive definite and only then, and the loss of the targets is that of the normal
distribution. For a kernel its covariances are those of the inputs, with the noise added on the
diagonal. -/
theorem negativeLogLikelihood_is_gaussian :
    (∀ {n : ℕ} (a : SquareMatrix ℝ n), a.toMatrix.IsSymm →
      ((∃ l, cholesky? a = some l) ↔ a.toMatrix.PosDef) ∧
      (∀ l, cholesky? a = some l → IsFactorOf l a.toMatrix) ∧
      ∀ y : Vector ℝ n, a.toMatrix.PosDef →
        lossOf a y.toList = .ok (gaussianLoss a.toMatrix y.get)) ∧
    ∀ (k : Kernel ℝ) (noise : ℝ) (xs : List ℝ) (y : Vector ℝ xs.length), xs ≠ [] →
      let A := (gramMatrix k xs).toMatrix + noise • (1 : Matrix _ _ ℝ)
      (A.PosDef → negativeLogLikelihood k noise xs y.toList = .ok (gaussianLoss A y.get)) ∧
      (¬ A.PosDef →
        negativeLogLikelihood k noise xs y.toList = .error (.fit .notPositiveDefinite)) := by
  constructor
  · intro n a hsymm
    refine ⟨⟨?_, exists_cholesky?⟩, fun l hl ↦ isFactorOf_of_cholesky? hsymm hl,
      fun y ha ↦ lossOf_of_posDef ha y⟩
    rintro ⟨l, hl⟩
    exact (isFactorOf_of_cholesky? hsymm hl).posDef
  · intro k noise xs y hxs
    rw [negativeLogLikelihood_of_ne_nil hxs, ← toMatrix_covarianceMatrix]
    exact ⟨fun ha ↦ lossOf_of_posDef ha y,
      fun ha ↦ lossOf_of_not_posDef (isSymm_covarianceMatrix k noise xs) ha _⟩

def chain : SquareMatrix ℝ 3 := ⟨.ofFn fun k ↦ (![2, 1, 0, 1, 2, 1, 0, 1, 2] k : ℕ)⟩

theorem toMatrix_chain : chain.toMatrix = !![2, 1, 0; 1, 2, 1; 0, 1, 2] := by
  have hnatural : chain.toMatrix =
      (!![2, 1, 0; 1, 2, 1; 0, 1, 2] : Matrix (Fin 3) (Fin 3) ℕ).map Nat.cast := by
    ext i j
    fin_cases i <;> fin_cases j <;> rfl
  rw [hnatural]
  ext i j
  fin_cases i <;> fin_cases j <;> simp

theorem posDef_chain : chain.toMatrix.PosDef := by
  apply Matrix.PosDef.of_dotProduct_mulVec_pos
  · rw [toMatrix_chain]
    ext i j
    fin_cases i <;> fin_cases j <;> simp
  · intro x hx
    have hsquares : star x ⬝ᵥ chain.toMatrix.mulVec x =
        x 0 ^ 2 + (x 0 + x 1) ^ 2 + (x 1 + x 2) ^ 2 + x 2 ^ 2 := by
      rw [toMatrix_chain]
      simp [dotProduct, Matrix.mulVec, Fin.sum_univ_three]
      ring
    rw [hsquares]
    by_contra hle
    have h0 : x 0 = 0 := by nlinarith
    have h2 : x 2 = 0 := by nlinarith
    have h1 : x 1 = 0 := by nlinarith
    apply hx
    ext i
    fin_cases i
    · exact h0
    · exact h1
    · exact h2

def whiteNoise : Kernel ℝ := .leaf ⟨.white, [1]⟩

theorem toMatrix_gramMatrix_whiteNoise (xs : List ℝ) : (gramMatrix whiteNoise xs).toMatrix = 1 := by
  ext i j
  have hcovariance (x x' : ℝ) (same : Bool) :
      whiteNoise.covariance x x' same = if same then 1 else 0 :=
    Component.covariance_white 1 x x' same
  rw [toMatrix_apply, entry_gramMatrix, Matrix.one_apply, hcovariance, hcovariance]
  by_cases hij : i = j
  · simp [hij]
  · simp [hij]

theorem negativeLogLikelihood_is_gaussian_chain :
    (∃ l, cholesky? chain = some l ∧ IsFactorOf l chain.toMatrix) ∧
      lossOf chain [1, 0, 2] = .ok (gaussianLoss chain.toMatrix ![1, 0, 2]) ∧
      negativeLogLikelihood whiteNoise 1 [0, 1, 3] [1, 0, 2] =
        .ok (gaussianLoss (1 + (1 : ℝ) • (1 : Matrix (Fin 3) (Fin 3) ℝ)) ![1, 0, 2]) := by
  obtain ⟨hmatrix, hkernel⟩ := negativeLogLikelihood_is_gaussian
  obtain ⟨hposDef, hfactor, hloss⟩ := hmatrix chain (isSymm_of_posDef posDef_chain)
  have hnoisy : ((gramMatrix whiteNoise [0, 1, 3]).toMatrix +
      (1 : ℝ) • (1 : Matrix _ _ ℝ)).PosDef := by
    rw [toMatrix_gramMatrix_whiteNoise, one_smul]
    exact .add .one .one
  have hget : (#v[1, 0, 2] : Vector ℝ 3).get = ![1, 0, 2] := by
    ext i
    fin_cases i <;> rfl
  obtain ⟨l, hl⟩ := hposDef.2 posDef_chain
  refine ⟨⟨l, hl, hfactor l hl⟩, ?_, ?_⟩
  · rw [← hget]
    exact hloss #v[1, 0, 2] posDef_chain
  · have h := (hkernel whiteNoise 1 [0, 1, 3] #v[1, 0, 2] (by simp)).1 hnoisy
    rw [toMatrix_gramMatrix_whiteNoise] at h
    rw [← hget]
    exact h

end CovarianceSearch.Likelihood
