import CovarianceSearch.Likelihood
import CovarianceSearch.Proofs.SquareMatrix

namespace CovarianceSearch.Likelihood

open Scalar SquareMatrix

variable {n : ℕ} {A : Matrix (Fin n) (Fin n) ℝ} {a b b' l : SquareMatrix ℝ n} {i j r c : Fin n}

/-- Whether the entry of row `r` and column `c` comes before column `j` of row `i`, row by row. -/
def Precedes (i j : ℕ) (r c : Fin n) : Prop := r < i ∨ r = i ∧ c < j

/-- The buffer before the entry of row `i` and column `j` is computed. -/
structure Factored (A : Matrix (Fin n) (Fin n) ℝ) (i j : ℕ) (b : SquareMatrix ℝ n) : Prop where
  product : ∀ r c, c ≤ r → Precedes i j r c →
    ∑ k ∈ Finset.Iic c, b.entry r k * b.entry c k = A r c
  positive : ∀ r, Precedes i j r r → 0 < b.entry r r
  above : ∀ r c : Fin n, r < i → r < c → b.entry r c = 0
  rest : ∀ r c : Fin n, c ≤ r → ¬ Precedes i j r c → b.entry r c = A r c

theorem factored_start (a : SquareMatrix ℝ n) : Factored a.toMatrix 0 0 a where
  product r c _ h := by
    simp [Precedes] at h
  positive r h := by
    simp [Precedes] at h
  above r c h := by
    simp at h
  rest r c _ _ := rfl

/-- What is left of an entry of the matrix when the products of the factor before it are taken
off. -/
def residue (b : SquareMatrix ℝ n) (i j : Fin n) : ℝ :=
  b.entry i j - ∑ k ∈ Finset.Iio j, b.entry i k * b.entry j k

theorem factorAt?_eq (i j : Fin n) (b : SquareMatrix ℝ n) : factorAt? i b j =
    if i = j then if 0 < residue b i i then some (b.put i i √(residue b i i)) else none
    else some (b.put i j (residue b i j * (b.entry j j)⁻¹)) := by
  have hresidue : subtractProducts (b.entry i j) (before j) (b.entry i) (b.entry j) =
      residue b i j := by
    rw [subtractProducts_real, sum_before, residue]
  have hfinite : isFinite (residue b i j) = true := rfl
  rw [factorAt?, hresidue]
  simp only [hfinite, Bool.true_and, decide_eq_true_eq, zero_real]
  by_cases h : i = j
  · subst h
    rfl
  · rw [if_neg h, if_neg h]
    exact congrArg (fun v ↦ some (b.put i j v)) (div_eq_mul_inv _ _)

theorem Factored.put {v : ℝ} (h : Factored A i j b) (hj : j ≤ i)
    (hv : v * (b.put i j v).entry j j = residue b i j) (hpos : i = j → 0 < v) :
    Factored A i (j + 1) (b.put i j v) where
  product r c hc hprec := by
    by_cases hlast : r = i ∧ c = j
    · obtain ⟨rfl, rfl⟩ := hlast
      have hbefore : ∑ k ∈ Finset.Iio c, (b.put r c v).entry r k * (b.put r c v).entry c k =
          ∑ k ∈ Finset.Iio c, b.entry r k * b.entry c k := by
        apply Finset.sum_congr rfl
        intro k hk
        have hne := (Finset.mem_Iio.1 hk).ne
        rw [entry_put_of_ne v (.inr hne), entry_put_of_ne v (.inr hne)]
      have hrest := h.rest r c hc (by simp [Precedes])
      rw [sum_Iic_eq, hbefore, entry_put_self, hv, residue, hrest]
      ring
    · -- The entry that is put comes after all that the sum over an earlier entry reads.
      have hprec' : Precedes i j r c := by
        simp only [Precedes, Fin.ext_iff] at hprec hlast ⊢
        omega
      rw [← h.product r c hc hprec']
      apply Finset.sum_congr rfl
      intro k hk
      have hk := Finset.mem_Iic.1 hk
      have hrow : r ≠ i ∨ k ≠ j := by
        simp only [Precedes, Fin.ext_iff, Fin.le_def] at *
        omega
      have hcolumn : c ≠ i ∨ k ≠ j := by
        simp only [Precedes, Fin.ext_iff, Fin.le_def] at *
        omega
      rw [entry_put_of_ne v hrow, entry_put_of_ne v hcolumn]
  positive r hprec := by
    by_cases hlast : r = i ∧ r = j
    · obtain ⟨rfl, rfl⟩ := hlast
      rw [entry_put_self]
      exact hpos rfl
    · rw [entry_put, if_neg hlast]
      apply h.positive
      simp only [Precedes, Fin.ext_iff] at hprec hlast ⊢
      omega
  above r c hr hc := by
    rw [entry_put_of_ne v (.inl (Fin.ne_of_val_ne hr.ne))]
    exact h.above r c hr hc
  rest r c hc hprec := by
    have hne : r ≠ i ∨ c ≠ j := by
      simp only [Precedes, ne_eq, Fin.ext_iff] at hprec ⊢
      omega
    rw [entry_put_of_ne v hne]
    apply h.rest r c hc
    simp only [Precedes] at hprec ⊢
    omega

theorem Factored.exists_factorAt? (h : Factored A i j b) (hj : j < i) :
    ∃ b', factorAt? i b j = some b' ∧ Factored A i (j + 1) b' := by
  have hpos : 0 < b.entry j j := h.positive j (.inl hj)
  rw [factorAt?_eq, if_neg hj.ne']
  refine ⟨_, rfl, h.put hj.le ?_ fun heq ↦ absurd heq hj.ne'⟩
  rw [entry_put_of_ne _ (.inl hj.ne), inv_mul_cancel_right₀ hpos.ne']

theorem Factored.factorAt?_self (h : Factored A i i b) (hpivot : 0 < residue b i i) :
    factorAt? i b i = some (b.put i i √(residue b i i)) ∧
      Factored A i (i + 1) (b.put i i √(residue b i i)) := by
  rw [factorAt?_eq, if_pos rfl, if_pos hpivot]
  refine ⟨rfl, h.put le_rfl ?_ fun _ ↦ Real.sqrt_pos.2 hpivot⟩
  rw [entry_put_self, Real.mul_self_sqrt hpivot.le]

theorem Factored.of_factorAt? (h : Factored A i j b) (hj : j ≤ i)
    (hb' : factorAt? i b j = some b') : Factored A i (j + 1) b' := by
  rcases hj.lt_or_eq with hlt | rfl
  · obtain ⟨b'', hb'', hnext⟩ := h.exists_factorAt? hlt
    cases hb'.symm.trans hb''
    exact hnext
  · by_cases hpivot : 0 < residue b j j
    · obtain ⟨hput, hnext⟩ := h.factorAt?_self hpivot
      cases hb'.symm.trans hput
      exact hnext
    · rw [factorAt?_eq, if_pos rfl, if_neg hpivot] at hb'
      cases hb'

theorem Factored.clear (h : Factored A i (i + 1) b) :
    Factored A (i + 1) 0 ((behind i).foldl (fun a j ↦ a.put i j zero) b) := by
  have hentry (r c : Fin n) (hc : c ≤ r) :
      ((behind i).foldl (fun a j ↦ a.put i j zero) b).entry r c = b.entry r c := by
    rw [entry_foldl_put, if_neg]
    rintro ⟨rfl, hmem⟩
    exact absurd (mem_behind.1 hmem) hc.not_gt
  have hprecedes (r c : Fin n) (hc : c ≤ r) : Precedes (i + 1) 0 r c ↔ Precedes i (i + 1) r c := by
    simp only [Precedes, Fin.le_def] at hc ⊢
    omega
  constructor
  · intro r c hc hprec
    rw [← h.product r c hc ((hprecedes r c hc).1 hprec)]
    apply Finset.sum_congr rfl
    intro k hk
    have hk := Finset.mem_Iic.1 hk
    rw [hentry r k (hk.trans hc), hentry c k hk]
  · intro r hprec
    rw [hentry r r le_rfl]
    exact h.positive r ((hprecedes r r le_rfl).1 hprec)
  · intro r c hr hc
    rw [entry_foldl_put]
    by_cases hri : r = i
    · subst hri
      rw [if_pos ⟨rfl, mem_behind.2 hc⟩, zero_real]
    · rw [if_neg fun hmem ↦ hri hmem.1]
      exact h.above r c (by omega) hc
  · intro r c hc hprec
    rw [hentry r c hc]
    exact h.rest r c hc fun hprec' ↦ hprec ((hprecedes r c hc).2 hprec')

theorem Factored.of_factorRow? (h : Factored A i 0 b) (hb' : factorRow? b i = some b') :
    Factored A (i + 1) 0 b' := by
  obtain ⟨b'', hb'', hclear⟩ := Option.bind_eq_some_iff.1 hb'
  cases hclear
  apply Factored.clear
  refine foldlM_take_induction (P := Factored A i) ?_ i.isLt hb'' h
  intro j s s' hj hs hs'
  exact hs.of_factorAt? (Nat.le_of_lt_succ hj) hs'

/-- A lower triangular matrix, up to row `i` the factor with a one in place of the last pivot. -/
def cornerEntry (b : SquareMatrix ℝ n) (i r k : Fin n) : ℝ :=
  if k = i then if r = i then 1 else 0 else if k ≤ r then b.entry r k else 0

def corner (b : SquareMatrix ℝ n) (i : Fin n) : Matrix (Finset.Iic i) (Finset.Iic i) ℝ :=
  .of fun r k ↦ cornerEntry b i r k

def lastPivot (b : SquareMatrix ℝ n) (i k : Fin n) : ℝ := if k = i then residue b i i else 1

theorem Factored.sum_corner (h : Factored A i i b) (hc : c ≤ r) (hr : r ≤ i) :
    ∑ k ∈ Finset.Iic i, cornerEntry b i r k * lastPivot b i k * cornerEntry b i c k = A r c := by
  have hcorner (k : Fin n) (hk : k < i) :
      cornerEntry b i r k * lastPivot b i k * cornerEntry b i c k =
        if k ≤ c then b.entry r k * b.entry c k else 0 := by
    simp only [cornerEntry, lastPivot, if_neg hk.ne, mul_one]
    by_cases hkc : k ≤ c
    · rw [if_pos hkc, if_pos hkc, if_pos (hkc.trans hc)]
    · rw [if_neg hkc, if_neg hkc, mul_zero]
  rw [sum_Iic_eq, Finset.sum_congr rfl fun k hk ↦ hcorner k (Finset.mem_Iio.1 hk),
    ← Finset.sum_filter]
  by_cases hci : c = i
  · obtain rfl : c = r := le_antisymm hc (hci ▸ hr)
    subst hci
    have hall : (Finset.Iio c).filter (· ≤ c) = Finset.Iio c := by
      apply Finset.filter_true_of_mem
      intro k hk
      exact (Finset.mem_Iio.1 hk).le
    have hrest := h.rest c c le_rfl (by simp [Precedes])
    simp only [hall, cornerEntry, lastPivot, if_true, one_mul, mul_one, residue, hrest]
    ring
  · have hlt : c < i := lt_of_le_of_ne (hc.trans hr) hci
    have hall : (Finset.Iio i).filter (· ≤ c) = Finset.Iic c := by
      ext k
      rw [Finset.mem_filter, Finset.mem_Iio, Finset.mem_Iic]
      exact ⟨fun hk ↦ hk.2, fun hk ↦ ⟨hk.trans_lt hlt, hk⟩⟩
    have hprec : Precedes i i r c := by
      simp only [Precedes, Fin.lt_def, Fin.le_def] at hr hlt ⊢
      omega
    rw [hall, h.product r c hc hprec]
    simp [cornerEntry, hci]

theorem Factored.submatrix_eq (hA : A.IsSymm) (h : Factored A i i b) :
    A.submatrix (Subtype.val : Finset.Iic i → Fin n) Subtype.val =
      corner b i * Matrix.diagonal (fun k : Finset.Iic i ↦ lastPivot b i k) *
        (corner b i).transpose := by
  ext r c
  have hsum (r c : Fin n) := Finset.sum_coe_sort (Finset.Iic i) fun k ↦
    cornerEntry b i r k * lastPivot b i k * cornerEntry b i c k
  rw [Matrix.mul_apply]
  simp only [Matrix.mul_diagonal, Matrix.transpose_apply, corner, Matrix.of_apply,
    Matrix.submatrix_apply, hsum]
  rcases le_total c.1 r.1 with hcr | hrc
  · exact (h.sum_corner hcr (Finset.mem_Iic.1 r.2)).symm
  · -- Only the lower half is read, so the other half comes from the symmetry.
    rw [← hA.apply r.1 c.1, ← h.sum_corner hrc (Finset.mem_Iic.1 c.2)]
    apply Finset.sum_congr rfl
    intro k _
    ring

theorem isSymm_of_posDef (hA : A.PosDef) : A.IsSymm := by
  simpa [Matrix.IsHermitian, Matrix.IsSymm] using hA.isHermitian

/-- The pivots of a positive definite matrix are positive: up to the square of a determinant, a
pivot is the determinant of the corner that ends with it. -/
theorem Factored.residue_pos (hA : A.PosDef) (h : Factored A i i b) : 0 < residue b i i := by
  have hpivot : ∏ k : Finset.Iic i, lastPivot b i k = residue b i i := by
    rw [Finset.prod_coe_sort (Finset.Iic i) (lastPivot b i)]
    exact (Finset.prod_ite_eq' _ i _).trans (if_pos (Finset.mem_Iic.2 le_rfl))
  have hdet := (hA.submatrix (e := (Subtype.val : Finset.Iic i → Fin n))
    Subtype.val_injective).det_pos
  rw [h.submatrix_eq (isSymm_of_posDef hA), Matrix.det_mul, Matrix.det_mul, Matrix.det_diagonal,
    hpivot, Matrix.det_transpose, mul_right_comm] at hdet
  by_contra hneg
  exact absurd hdet (mul_nonpos_of_nonneg_of_nonpos (mul_self_nonneg _) (not_lt.1 hneg)).not_gt

theorem Factored.exists_factorRow? (hA : A.PosDef) (h : Factored A i 0 b) :
    ∃ b', factorRow? b i = some b' ∧ Factored A (i + 1) 0 b' := by
  have hloop : ∃ b', ((List.finRange n).take (i + 1)).foldlM (factorAt? i) b = some b' ∧
      Factored A i (i + 1) b' := by
    refine exists_foldlM_take (P := Factored A i) ?_ i.isLt h
    intro j s hj hs
    rcases (Nat.le_of_lt_succ hj).lt_or_eq with hlt | heq
    · exact hs.exists_factorAt? hlt
    · obtain rfl : j = i := Fin.ext heq
      exact ⟨_, hs.factorAt?_self (hs.residue_pos hA)⟩
  obtain ⟨b', hb', hend⟩ := hloop
  refine ⟨_, ?_, hend.clear⟩
  rw [factorRow?, hb']
  rfl

/-- A lower triangular matrix with a positive diagonal whose product with its transpose is `A`. -/
structure IsFactorOf (l : SquareMatrix ℝ n) (A : Matrix (Fin n) (Fin n) ℝ) : Prop where
  above : ∀ i j, i < j → l.entry i j = 0
  positive : ∀ i, 0 < l.entry i i
  product : l.toMatrix * l.toMatrix.transpose = A

theorem Factored.isFactorOf (hA : A.IsSymm) (h : Factored A n 0 l) : IsFactorOf l A := by
  have habove (r c : Fin n) (hc : r < c) : l.entry r c = 0 := h.above r c r.isLt hc
  have hsum (r c : Fin n) (hc : c ≤ r) : ∑ k, l.entry r k * l.entry c k = A r c := by
    rw [← h.product r c hc (.inl r.isLt)]
    apply sum_eq_sum_Iic
    intro k hk
    rw [habove c k hk, mul_zero]
  refine ⟨habove, fun r ↦ h.positive r (.inl r.isLt), ?_⟩
  ext r c
  simp only [Matrix.mul_apply, Matrix.transpose_apply, toMatrix_apply]
  rcases le_total c r with hcr | hrc
  · exact hsum r c hcr
  · rw [← hA.apply r c, ← hsum c r hrc]
    simp only [mul_comm]

theorem isFactorOf_of_cholesky? (ha : a.toMatrix.IsSymm) (hl : cholesky? a = some l) :
    IsFactorOf l a.toMatrix := by
  apply Factored.isFactorOf ha
  rw [cholesky?, ← take_finRange_self] at hl
  refine foldlM_take_induction (P := fun i ↦ Factored a.toMatrix i 0) ?_ le_rfl hl
    (factored_start a)
  intro i s s' _ hs hs'
  exact hs.of_factorRow? hs'

theorem exists_cholesky? (ha : a.toMatrix.PosDef) : ∃ l, cholesky? a = some l := by
  rw [cholesky?, ← take_finRange_self]
  have hloop := exists_foldlM_take (P := fun i ↦ Factored a.toMatrix i 0)
    (fun i s _ hs ↦ hs.exists_factorRow? ha) le_rfl (factored_start a)
  exact hloop.imp fun l hl ↦ hl.1

theorem IsFactorOf.det_eq (h : IsFactorOf l A) : l.toMatrix.det = ∏ i, l.entry i i := by
  apply Matrix.det_of_isLowerTriangular
  intro i j hij
  exact h.above i j (OrderDual.toDual_lt_toDual.1 hij)

theorem IsFactorOf.det_pos (h : IsFactorOf l A) : 0 < l.toMatrix.det := by
  rw [h.det_eq]
  exact Finset.prod_pos fun i _ ↦ h.positive i

theorem IsFactorOf.posDef (h : IsFactorOf l A) : A.PosDef := by
  have hunit : IsUnit l.toMatrix := by
    rw [Matrix.isUnit_iff_isUnit_det]
    exact h.det_pos.ne'.isUnit
  rw [← h.product, ← Matrix.conjTranspose_eq_transpose_of_trivial]
  exact .mul_conjTranspose_self _ (Matrix.vecMul_injective_of_isUnit hunit)

end CovarianceSearch.Likelihood
