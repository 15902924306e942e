import CovarianceSearch.Proofs.KernelTree.Idempotence

namespace CovarianceSearch.KernelTree

/-- A base kernel or a change, neither of which is opened when products are multiplied out. -/
inductive IsFactor : KernelTree → Prop
  | leaf (k : BaseKernel) : IsFactor (.leaf k)
  | change {c : Combinator} {ts : List KernelTree} : c.operation? = none → IsFactor (.node c ts)

/-- A factor, or a product of factors that `P` holds of. Unlike a monomial it may be empty. -/
inductive IsTerm (P : List KernelTree → Prop) : KernelTree → Prop
  | factor {t : KernelTree} : IsFactor t → IsTerm P t
  | product {ts : List KernelTree} : (∀ t ∈ ts, IsFactor t) → P ts → IsTerm P (.node .product ts)

inductive IsFlat (P : List KernelTree → Prop) : KernelTree → Prop
  | term {t : KernelTree} : IsTerm P t → IsFlat P t
  | sum {ts : List KernelTree} : (∀ t ∈ ts, IsTerm P t) → IsFlat P (.node .sum ts)

variable {P : List KernelTree → Prop} {t : KernelTree}

theorem isFactor_of_op? (hsum : t.op? ≠ some .sum) (hproduct : t.op? ≠ some .product) :
    IsFactor t := by
  cases t with
  | leaf k => exact .leaf k
  | node c ts =>
    rcases c.cases_operation with rfl | rfl | hc
    · exact absurd rfl hsum
    · exact absurd rfl hproduct
    · exact .change hc

theorem IsMultipliedOut.isTerm (h : t.IsMultipliedOut) (hP : t.EveryNode .product P)
    (hsum : t.op? ≠ some .sum) : IsTerm P t := by
  cases t with
  | leaf k => exact .factor (.leaf k)
  | node c ts =>
    rcases c.cases_operation with rfl | rfl | hc
    · exact absurd rfl hsum
    · have hsums := (everyNode_node_iff.1 h.factors).1 rfl
      have hproducts := (everyNode_node_iff.1 h.products).1 rfl
      refine .product (fun t ht ↦ ?_) ((everyNode_node_iff.1 hP).1 rfl)
      exact isFactor_of_op? (hsums t ht) (hproducts t ht)
    · exact .factor (.change hc)

theorem IsMultipliedOut.isFlat (h : t.IsMultipliedOut) (hP : t.EveryNode .product P) :
    IsFlat P t := by
  by_cases hsum : t.op? = some .sum
  · cases hP with
    | leaf k => cases hsum
    | @node c ts _ hts =>
      obtain rfl := Option.some_inj.1 hsum
      refine .sum fun t ht ↦ (h.of_mem ht).isTerm (hts t ht) ?_
      exact (everyNode_node_iff.1 h.sums).1 rfl t ht
  · exact .term (h.isTerm hP hsum)

/-- White noise stands beside base kernels only. -/
def IsQuiet (ts : List KernelTree) : Prop := .leaf .white ∈ ts → ∀ t ∈ ts, t.isLeaf

theorem isQuiet_absorbIntoWhite (ts : List KernelTree) : IsQuiet (absorbIntoWhite ts) := by
  intro hwhite t ht
  unfold absorbIntoWhite at hwhite ht
  split at ht
  · rcases List.mem_cons.1 ht with rfl | ht
    · rfl
    · have hkept := (List.mem_filter.1 ht).2
      cases t with
      | leaf k => rfl
      | node c ts => cases hkept
  · next hnone =>
    rw [if_neg hnone] at hwhite
    exact absurd hwhite hnone

end CovarianceSearch.KernelTree
