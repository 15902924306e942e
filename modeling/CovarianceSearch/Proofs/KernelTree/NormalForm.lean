import CovarianceSearch.Grammar
import CovarianceSearch.Proofs.Evaluation
import CovarianceSearch.Proofs.KernelTree.Alike

namespace CovarianceSearch.KernelTree

/-- At most one factor is an RBF kernel, and white noise is there once at most and beside
non-stationary factors only. -/
structure IsReduced (ks : List BaseKernel) : Prop where
  rbf : ks.count .rbf ≤ 1
  white : ks.count .white ≤ 1
  nonStationary : .white ∈ ks → ∀ k ∈ ks, k ≠ .white → k.isStationary = false

inductive IsNormalTerm : KernelTree → Prop
  | leaf (k : BaseKernel) : IsNormalTerm (.leaf k)
  | product {ks : List BaseKernel} (hlength : 2 ≤ ks.length) (h : IsReduced ks) :
      IsNormalTerm (.node .product (ks.map .leaf))

inductive IsNormal : KernelTree → Prop
  | term {t : KernelTree} (h : IsNormalTerm t) : IsNormal t
  | sum {ts : List KernelTree} (hne : ts ≠ []) (h : ∀ t ∈ ts, IsNormalTerm t) :
      IsNormal (.node .sum ts)

variable {t : KernelTree} {ks : List BaseKernel}

theorem count_reduceFactors (k : BaseKernel) (ks : List BaseKernel) :
    (reduceFactors ks).count k =
      if .white ∈ ks then if k = .white then 1 else if k.isStationary then 0 else ks.count k
      else if k = .rbf then min 1 (ks.count k) else ks.count k := by
  have h := count_reduceMonomial k ks
  rwa [← coe_reduceFactors, Multiset.coe_count, Multiset.coe_count] at h

theorem isReduced_reduceFactors (ks : List BaseKernel) : IsReduced (reduceFactors ks) := by
  have hrbf : BaseKernel.rbf.isStationary = true := rfl
  refine ⟨?_, ?_, ?_⟩
  · rw [count_reduceFactors]
    by_cases hwhite : .white ∈ ks
    · simp [hwhite, hrbf]
    · simp [hwhite]
  · rw [count_reduceFactors]
    by_cases hwhite : .white ∈ ks
    · simp [hwhite]
    · simp [hwhite, List.count_eq_zero_of_not_mem hwhite]
  · intro hwhite k hk hne
    have hmem : .white ∈ ks := by
      by_contra hmem
      rw [← List.count_pos_iff, count_reduceFactors, if_neg hmem, if_neg (by simp),
        List.count_eq_zero_of_not_mem hmem] at hwhite
      exact Nat.lt_irrefl 0 hwhite
    rw [← List.count_pos_iff, count_reduceFactors, if_pos hmem, if_neg hne] at hk
    by_contra hstationary
    rw [if_pos (Bool.eq_true_of_not_eq_false hstationary)] at hk
    exact Nat.lt_irrefl 0 hk

theorem isNormalTerm_monomial (hne : ks ≠ []) (h : IsReduced ks) :
    IsNormalTerm (monomial ks) := by
  match ks with
  | [] => exact absurd rfl hne
  | [k] => exact .leaf k
  | k :: l :: ks =>
    rcases monomial_eq (k :: l :: ks) with ⟨k', hk', -⟩ | heq
    · cases hk'
    · rw [heq]
      exact .product (Nat.le_add_left 2 ks.length) h

theorem IsExpanded.isNormal_mapMonomials (h : t.IsExpanded) :
    IsNormal (mapMonomials reduceFactors t) := by
  cases h with
  | monomial h =>
    rw [h.mapMonomials_eq]
    exact .term (isNormalTerm_monomial (reduceFactors_ne_nil _ h.labels_ne_nil)
      (isReduced_reduceFactors _))
  | sum hne h =>
    refine .sum (by simpa using hne) (List.forall_mem_map.2 fun t ht ↦ ?_)
    exact isNormalTerm_monomial (reduceFactors_ne_nil _ (h t ht).labels_ne_nil)
      (isReduced_reduceFactors _)

/-- Simplification brings every valid tree into normal form, which has a text, can be computed with
and can be expanded. -/
theorem simplify_reaches_normal_form (h : t.validate = .ok ()) :
    t.simplify.validate = .ok () ∧ t.simplify.IsNormal ∧ (∃ key, t.simplify.text = .ok key) ∧
      (∀ (R : Type) [Scalar R], ∃ k : Kernel R, Kernel.ofTree t.simplify = .ok k) ∧
      ∀ p : Palette, ∃ ts, p.expandTree t.simplify = .ok ts := by
  have hvalid : t.IsValid := h
  have hsimplified : t.simplify.validate = .ok () := hvalid.isValid_simplify
  refine ⟨hsimplified, ?_, ⟨_, hvalid.text_simplify⟩, ?_, ?_⟩
  · rw [hvalid.simplify_eq]
    exact hvalid.isExpanded_distribute.isNormal_mapMonomials
  · intro R _
    exact Kernel.exists_ofTree hsimplified
  · intro p
    exact ⟨_, by rw [Palette.expandTree, hsimplified]⟩

def smoothNoise : KernelTree :=
  .node .product [.node .sum [.leaf .rbf, .leaf .white], .leaf .linear, .leaf .rbf]

theorem simplify_reaches_normal_form_smoothNoise :
    smoothNoise.validate = .ok () ∧
      smoothNoise.simplify = .node .sum [.node .product [.leaf .linear, .leaf .rbf],
        .node .product [.leaf .white, .leaf .linear]] ∧
      smoothNoise.simplify.IsNormal ∧
      smoothNoise.simplify.text = .ok "linear * rbf + linear * white" := by
  have hvalid : smoothNoise.validate = .ok () := rfl
  obtain ⟨-, hnormal, -⟩ := simplify_reaches_normal_form hvalid
  exact ⟨hvalid, by decide, hnormal, by decide⟩

end CovarianceSearch.KernelTree
