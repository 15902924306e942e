import CovarianceSearch.Proofs.KernelTree.Simplify
import Mathlib.Data.Multiset.Filter
import Mathlib.Data.Multiset.Count
import Mathlib.Data.Multiset.Replicate

namespace CovarianceSearch

/-- What simplification leaves of a monomial: white noise takes up the stationary factors beside
it, and of several RBF factors one stays. -/
def reduceMonomial (m : Multiset BaseKernel) : Multiset BaseKernel :=
  if .white ∈ m then .white ::ₘ m.filter fun k ↦ k.isStationary = false
  else m.filter (· ≠ .rbf) + Multiset.replicate (min 1 (m.count .rbf)) .rbf

def Terms.reduce (s : Terms) : Terms := ⟨s.monomials.map reduceMonomial⟩

namespace KernelTree

/-- The terms of a tree multiplied out: a base kernel is a monomial, sums collect the terms of their
operands, and products join monomials, one of every operand. Change points and windows have no
terms. -/
def terms : KernelTree → Terms := value (fun k ↦ .single {k}) (fun _ ↦ 0) fun _ ↦ 0

@[simp] theorem terms_leaf (k : BaseKernel) : terms (.leaf k) = .single {k} := rfl

@[simp] theorem terms_sumNode (ts : List KernelTree) :
    terms (.node .sum ts) = (ts.map terms).sum := value_sumNode ..

@[simp] theorem terms_productNode (ts : List KernelTree) :
    terms (.node .product ts) = (ts.map terms).prod := value_productNode ..

theorem terms_distribute (t : KernelTree) : t.distribute.terms = t.terms := value_distribute ..

theorem terms_productOrSingle (ts : List KernelTree) :
    terms (productOrSingle ts) = (ts.map terms).prod := value_productOrSingle ..

theorem terms_leaves (ks : List BaseKernel) :
    ((ks.map .leaf : List KernelTree).map terms).prod = .single ks := by
  rw [List.map_map]
  exact Terms.prod_single ks

theorem terms_monomial (ks : List BaseKernel) : terms (monomial ks) = .single ks := by
  rw [monomial, terms_productOrSingle, terms_leaves]

theorem IsMonomial.terms_eq {t : KernelTree} (h : IsMonomial t) : t.terms = .single t.labels := by
  cases h with
  | leaf k => rfl
  | @product ks hne => rw [terms_productNode, terms_leaves, labels_node, flatMap_labels_leaves]

theorem IsExpanded.monomials_terms {t : KernelTree} (h : IsExpanded t) :
    t.terms.monomials =
      ((operandsFor .sum t).map fun s ↦ (s.labels : Multiset BaseKernel) : List _) := by
  cases h with
  | monomial h => rw [h.operandsFor_sum, h.terms_eq]; rfl
  | @sum ts hne h =>
    have hmap : ts.map terms = (ts.map fun s ↦ (s.labels : Multiset BaseKernel)).map .single := by
      rw [List.map_map]
      exact List.map_congr_left fun t ht ↦ (h t ht).terms_eq
    rw [terms_sumNode, hmap, Terms.monomials_sum_single]
    rfl

theorem IsExpanded.monomials_mapMonomials {t : KernelTree} (h : IsExpanded t)
    {g : List BaseKernel → List BaseKernel} {r : Multiset BaseKernel → Multiset BaseKernel}
    (hr : ∀ ks, (g ks : Multiset BaseKernel) = r ks) :
    (mapMonomials g t).terms.monomials = t.terms.monomials.map r := by
  cases h with
  | monomial h => simp [h.mapMonomials_eq, h.terms_eq, terms_monomial, hr]
  | @sum ts hne h =>
    have hmap : (ts.map fun t ↦ KernelTree.monomial (g t.labels)).map terms =
        (ts.map fun t ↦ r t.labels).map .single := by
      simp [terms_monomial, hr]
    rw [mapMonomials_sumNode, terms_sumNode, hmap, Terms.monomials_sum_single,
      (IsExpanded.sum hne h).monomials_terms, operandsFor, if_pos rfl, Multiset.map_coe,
      List.map_map]
    rfl

theorem coe_singleRbfFactor (ks : List BaseKernel) :
    (singleRbfFactor ks : Multiset BaseKernel) =
      (ks : Multiset BaseKernel).filter (· ≠ .rbf) +
        Multiset.replicate (min 1 ((ks : Multiset BaseKernel).count .rbf)) .rbf := by
  have hrbfs : ks.filter (· = .rbf) = List.replicate (ks.count .rbf) .rbf := by
    simpa using List.filter_eq (l := ks) BaseKernel.rbf
  rw [singleRbfFactor, hrbfs, List.take_replicate, ← Multiset.coe_add, Multiset.coe_replicate,
    Multiset.coe_count, Multiset.filter_coe]

theorem mem_singleRbfFactor {k : BaseKernel} (hk : k ≠ .rbf) {ks : List BaseKernel} :
    k ∈ singleRbfFactor ks ↔ k ∈ ks := by
  have htake : k ∉ (ks.filter (· = .rbf)).take 1 := fun h ↦
    hk (by simpa using (List.mem_filter.1 (List.mem_of_mem_take h)).2)
  simp [singleRbfFactor, htake, hk]

theorem filter_singleRbfFactor (ks : List BaseKernel) :
    (singleRbfFactor ks).filter (!·.isStationary) = ks.filter (!·.isStationary) := by
  have hnone : ((ks.filter (· = .rbf)).take 1).filter (!·.isStationary) = [] :=
    List.filter_eq_nil_iff.2 fun k hk ↦ by
      have hrbf : k = .rbf := by simpa using (List.mem_filter.1 (List.mem_of_mem_take hk)).2
      subst hrbf
      decide
  rw [singleRbfFactor, List.filter_append, hnone, List.append_nil, List.filter_filter]
  refine List.filter_congr fun k _ ↦ ?_
  by_cases hs : k.isStationary = true
  · simp [hs]
  · simp [isStationary_ne_rbf (Bool.eq_false_iff.2 hs)]

theorem coe_reduceFactors (ks : List BaseKernel) :
    (reduceFactors ks : Multiset BaseKernel) = reduceMonomial ks := by
  have hmem : .white ∈ singleRbfFactor ks ↔ .white ∈ ks := mem_singleRbfFactor (by simp)
  unfold reduceFactors absorbFactors reduceMonomial
  by_cases h : .white ∈ ks
  · rw [if_pos (hmem.2 h), if_pos (Multiset.mem_coe.2 h), filter_singleRbfFactor,
      ← Multiset.cons_coe, Multiset.filter_coe]
    simp
  · rw [if_neg (mt hmem.1 h), if_neg (mt Multiset.mem_coe.1 h), coe_singleRbfFactor]

/-- Simplification reduces the monomials that a tree is multiplied out to, and nothing else. -/
theorem IsValid.terms_simplify {t : KernelTree} (h : IsValid t) :
    t.simplify.terms = t.terms.reduce := by
  ext1
  rw [h.simplify_eq, h.isExpanded_distribute.monomials_mapMonomials coe_reduceFactors,
    terms_distribute]
  rfl

end KernelTree

end CovarianceSearch
