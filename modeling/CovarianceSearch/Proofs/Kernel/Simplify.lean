import CovarianceSearch.Proofs.Kernel.Models

namespace CovarianceSearch

open scoped Pointwise

section

variable {A : Type} [CommSemiring A]

/-- A factor can be taken into a sum of sets, where every summand gets its own element of it. -/
theorem sum_mul_subset (l : List (Set A)) (s : Set A) : l.sum * s ⊆ (l.map (· * s)).sum := by
  induction l with
  | nil => exact Set.zero_mul_subset s
  | cons t l ih =>
    rw [List.sum_cons, List.map_cons, List.sum_cons]
    exact (Set.add_mul_subset _ _ _).trans (Set.add_subset_add_left ih)

theorem mul_sum_subset (s : Set A) (l : List (Set A)) : s * l.sum ⊆ (l.map (s * ·)).sum := by
  rw [mul_comm]
  simpa only [mul_comm s] using sum_mul_subset l s

theorem pow_subset {s : Set A} (h : s * s ⊆ s) (n : ℕ) : s ^ n ⊆ s ^ min 1 n := by
  induction n with
  | zero => exact Set.Subset.refl _
  | succ n ih =>
    rw [Nat.min_eq_left (Nat.succ_pos n), pow_one]
    cases n with
    | zero => rw [zero_add, pow_one]
    | succ n =>
      rw [Nat.min_eq_left (Nat.succ_pos n), pow_one] at ih
      rw [pow_succ]
      exact (Set.mul_subset_mul_right ih).trans h

theorem sum_subset_sum {B : Type} {f g : B → Set A} {l : List B} (h : ∀ b ∈ l, f b ⊆ g b) :
    (l.map f).sum ⊆ (l.map g).sum := by
  refine List.Forall₂.sum_le_sum ?_
  rw [List.forall₂_map_left_iff, List.forall₂_map_right_iff, List.forall₂_same]
  exact h

theorem prod_subset_prod {B : Type} {f g : B → Set A} {l : List B} (h : ∀ b ∈ l, f b ⊆ g b) :
    (l.map f).prod ⊆ (l.map g).prod := by
  refine List.Forall₂.prod_le_prod' ?_
  rw [List.forall₂_map_left_iff, List.forall₂_map_right_iff, List.forall₂_same]
  exact h

end

namespace KernelTree

theorem sum_models_operandsFor (t : KernelTree) :
    ((operandsFor .sum t).map models).sum = models t := by
  cases t with
  | leaf k => simp [operandsFor]
  | node c ts => by_cases h : c = .sum <;> simp [operandsFor, h, models_sumNode]

theorem prod_models_operandsFor (t : KernelTree) :
    ((operandsFor .product t).map models).prod = models t := by
  cases t with
  | leaf k => simp [operandsFor]
  | node c ts => by_cases h : c = .product <;> simp [operandsFor, h, models_productNode]

theorem models_sum (ts : List KernelTree) : models (sum ts) = (ts.map models).sum := by
  rw [sum, combine, models_sumNode, List.map_flatMap, List.flatMap, List.sum_flatten, List.map_map]
  simp only [Function.comp_def, sum_models_operandsFor]

theorem models_product (ts : List KernelTree) : models (product ts) = (ts.map models).prod := by
  rw [product, combine, models_productNode, List.map_flatMap, List.flatMap, List.prod_flatten,
    List.map_map]
  simp only [Function.comp_def, prod_models_operandsFor]

theorem models_productOrSingle (ts : List KernelTree) :
    models (productOrSingle ts) = (ts.map models).prod := by
  match ts with
  | [] => exact models_product []
  | [t] => simp [productOrSingle]
  | t :: u :: ts => exact models_product (t :: u :: ts)

/-- Every summand of a product that is multiplied out gets values of its own for the factors that it
shares with the others, so there are no fewer functions. -/
theorem prod_models_subset_picks (ts : List KernelTree) :
    (ts.map models).prod ⊆ ((picks ts).map fun p ↦ (p.map models).prod).sum := by
  induction ts with
  | nil => simp [picks]
  | cons t ts ih =>
    have hpick (s : KernelTree) : models s * (ts.map models).prod ⊆
        ((picks ts).map fun p ↦ ((s :: p).map models).prod).sum := by
      simp only [List.map_cons, List.prod_cons]
      refine (Set.mul_subset_mul_left ih).trans ((mul_sum_subset _ _).trans_eq ?_)
      rw [List.map_map]
      rfl
    rw [List.map_cons, List.prod_cons, ← sum_models_operandsFor, picks, List.map_flatMap,
      List.flatMap, List.sum_flatten, List.map_map]
    refine (sum_mul_subset _ _).trans ?_
    rw [List.map_map]
    refine sum_subset_sum fun s _ ↦ (hpick s).trans_eq ?_
    rw [Function.comp_apply, List.map_map]
    rfl

theorem prod_models_subset_expandProduct (ts : List KernelTree) :
    (ts.map models).prod ⊆ models (expandProduct ts) := by
  unfold expandProduct
  split
  · refine (prod_models_subset_picks ts).trans_eq ?_
    rw [models_sum, List.map_map]
    simp only [Function.comp_def, models_productOrSingle]
  · exact (models_product ts).ge

theorem models_subset_distribute (t : KernelTree) : models t ⊆ models t.distribute := by
  induction t using OpTree.induction with
  | leaf k => exact Set.Subset.refl _
  | node c ts ih =>
    cases c with
    | sum =>
      rw [distribute_sumNode, models_sumNode, models_sum, List.map_map]
      exact sum_subset_sum ih
    | product =>
      rw [distribute_productNode, models_productNode]
      refine Set.Subset.trans ?_ (prod_models_subset_expandProduct _)
      rw [List.map_map]
      exact prod_subset_prod ih
    | changePoint =>
      rw [models_eq_empty rfl]
      exact Set.empty_subset _
    | changeWindow =>
      rw [models_eq_empty rfl]
      exact Set.empty_subset _

theorem models_monomial (ks : List BaseKernel) :
    models (monomial ks) = (ks.map fun k ↦ models (.leaf k)).prod := by
  rw [monomial, models_productOrSingle, List.map_map]
  rfl

theorem IsMonomial.models_eq {t : KernelTree} (h : IsMonomial t) :
    models t = models (monomial t.labels) := by
  cases h with
  | leaf k => rfl
  | @product ks hne =>
    rw [models_monomial, models_productNode, labels_node, flatMap_labels_leaves, List.map_map]
    rfl

theorem IsExpanded.models_subset_mapMonomials {g : List BaseKernel → List BaseKernel}
    (hg : ∀ ks, models (KernelTree.monomial ks) ⊆ models (KernelTree.monomial (g ks)))
    {t : KernelTree} (h : IsExpanded t) : models t ⊆ models (mapMonomials g t) := by
  cases h with
  | monomial h =>
    rw [h.mapMonomials_eq, h.models_eq]
    exact hg _
  | @sum ts hne h =>
    rw [mapMonomials_sumNode, models_sumNode, models_sumNode, List.map_map]
    refine sum_subset_sum fun t ht ↦ ?_
    rw [(h t ht).models_eq]
    exact hg _

theorem prod_models_filter (p : BaseKernel → Bool) (ks : List BaseKernel) :
    models (monomial ks) =
      models (monomial (ks.filter p)) * models (monomial (ks.filter fun k ↦ !p k)) := by
  rw [models_monomial, models_monomial, models_monomial, ← List.prod_append, ← List.map_append]
  exact ((List.filter_append_perm p ks).map _).prod_eq.symm

theorem models_rbf_mul_subset :
    models (.leaf .rbf) * models (.leaf .rbf) ⊆ models (.leaf .rbf) := by
  rintro _ ⟨f, hf, g, hg, rfl⟩
  obtain ⟨params, hpos, rfl⟩ := mem_models_leaf_iff.1 hf
  obtain ⟨params', hpos', rfl⟩ := mem_models_leaf_iff.1 hg
  obtain ⟨v, l, hv, hl, rfl⟩ := Component.isPositive_rbf_iff.1 hpos
  obtain ⟨w, m, hw, hm, rfl⟩ := Component.isPositive_rbf_iff.1 hpos'
  refine mem_models_leaf_iff.2 ⟨[v * w, (√((l ^ 2)⁻¹ + (m ^ 2)⁻¹))⁻¹], ?_, ?_⟩
  · exact Component.isPositive_rbf_iff.2 ⟨_, _, mul_pos hv hw, by positivity, rfl⟩
  · funext p
    exact (Component.covariance_rbf_mul hl hm _ _ _).symm

theorem models_subset_singleRbfFactor (ks : List BaseKernel) :
    models (monomial ks) ⊆ models (monomial (singleRbfFactor ks)) := by
  have hrbfs : ks.filter (· = .rbf) = List.replicate (ks.count .rbf) .rbf := by
    simpa using List.filter_eq (l := ks) BaseKernel.rbf
  have hpow : models (monomial (ks.filter (· = .rbf))) ⊆
      models (monomial ((ks.filter (· = .rbf)).take 1)) := by
    rw [hrbfs, List.take_replicate, models_monomial, models_monomial, List.map_replicate,
      List.map_replicate, List.prod_replicate, List.prod_replicate]
    exact pow_subset models_rbf_mul_subset _
  rw [prod_models_filter (· ≠ .rbf) ks]
  simp only [decide_not, Bool.not_not]
  refine (Set.mul_subset_mul_left hpow).trans_eq ?_
  rw [models_monomial, models_monomial, models_monomial, ← List.prod_append, ← List.map_append]
  simp only [singleRbfFactor, ne_eq, decide_not]

/-- White noise takes up the variance of a stationary factor. Where it does not vanish, the two
points are the same. -/
theorem models_stationary_mul_white_subset {k : BaseKernel} (hk : k.isStationary = true) :
    models (.leaf k) * models (.leaf .white) ⊆ models (.leaf .white) := by
  rintro _ ⟨f, hf, g, hg, rfl⟩
  obtain ⟨params, hpos, rfl⟩ := mem_models_leaf_iff.1 hf
  obtain ⟨params', hpos', rfl⟩ := mem_models_leaf_iff.1 hg
  obtain ⟨v, hv, rfl⟩ := Component.isPositive_white_iff.1 hpos'
  have hvariance := hpos.variance_pos
  refine mem_models_leaf_iff.2 ⟨[Component.variance ⟨k, params⟩ * v], ?_, ?_⟩
  · exact Component.isPositive_white_iff.2 ⟨_, mul_pos hvariance hv, rfl⟩
  · funext ⟨⟨a, b, same⟩, hsame⟩
    simp only [Pi.mul_apply, Component.onPairs, Component.covariance_white]
    cases same with
    | false => simp
    | true =>
      obtain rfl : a = b := hsame rfl
      rw [if_pos rfl, if_pos rfl, Component.covariance_self hk]

theorem models_stationaries_mul_white_subset {ks : List BaseKernel}
    (h : ∀ k ∈ ks, k.isStationary = true) :
    models (monomial ks) * models (.leaf .white) ⊆ models (.leaf .white) := by
  rw [models_monomial]
  induction ks with
  | nil => simp
  | cons k ks ih =>
    obtain ⟨hk, hks⟩ := List.forall_mem_cons.1 h
    rw [List.map_cons, List.prod_cons, mul_assoc]
    exact (Set.mul_subset_mul_left (ih hks)).trans (models_stationary_mul_white_subset hk)

theorem models_subset_absorbFactors (ks : List BaseKernel) :
    models (monomial ks) ⊆ models (monomial (absorbFactors ks)) := by
  unfold absorbFactors
  split
  · next hwhite =>
    have hmem : .white ∈ ks.filter (·.isStationary) := List.mem_filter.2 ⟨hwhite, rfl⟩
    have hperm := List.perm_cons_erase hmem
    have hothers : ∀ k ∈ (ks.filter (·.isStationary)).erase .white, k.isStationary = true :=
      fun k hk ↦ (List.mem_filter.1 (List.mem_of_mem_erase hk)).2
    have hstationary : models (monomial (ks.filter (·.isStationary))) ⊆ models (.leaf .white) := by
      refine Set.Subset.trans (Eq.subset ?_) (models_stationaries_mul_white_subset hothers)
      rw [models_monomial, (hperm.map _).prod_eq, List.map_cons, List.prod_cons, mul_comm,
        ← models_monomial]
    rw [prod_models_filter (·.isStationary) ks]
    refine (Set.mul_subset_mul_right hstationary).trans_eq ?_
    rw [models_monomial, models_monomial, List.map_cons, List.prod_cons]
  · exact Set.Subset.refl _

theorem models_subset_reduceFactors (ks : List BaseKernel) :
    models (monomial ks) ⊆ models (monomial (reduceFactors ks)) :=
  (models_subset_singleRbfFactor ks).trans (models_subset_absorbFactors _)

/-- Simplification does not lose covariance functions. -/
theorem IsValid.models_subset_simplify {t : KernelTree} (h : IsValid t) :
    models t ⊆ models t.simplify := by
  rw [h.simplify_eq]
  exact (models_subset_distribute t).trans
    (h.isExpanded_distribute.models_subset_mapMonomials models_subset_reduceFactors)

end KernelTree

end CovarianceSearch
