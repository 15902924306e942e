import CovarianceSearch.KernelTree.Simplify
import CovarianceSearch.KernelTree.Validity
import CovarianceSearch.Proofs.Outcome

namespace CovarianceSearch.KernelTree

/-- A tree of sums and products, none of them empty. -/
def IsValid (t : KernelTree) : Prop := t.validate = .ok ()

theorem isValid_leaf (k : BaseKernel) : IsValid (.leaf k) := rfl

theorem isValid_node_iff {c : Combinator} {ts : List KernelTree} :
    IsValid (.node c ts) ↔ (c = .sum ∨ c = .product) ∧ ts ≠ [] ∧ ∀ t ∈ ts, IsValid t := by
  have hchecks : (ts.map validate).forM id = .ok () ↔ ∀ t ∈ ts, IsValid t := by
    rw [Outcome.forM_id_eq_ok_iff]
    simp [IsValid]
  unfold IsValid at hchecks ⊢
  rw [← hchecks, validate, OpTree.fold_node]
  cases c <;> cases ts <;>
    simp [Combinator.applied, Combinator.operation, Combinator.operation?, bind, Except.bind, throw,
      throwThe, MonadExceptOf.throw, pure, Except.pure]

theorem IsValid.children_valid {c : Combinator} {ts : List KernelTree} (h : IsValid (.node c ts))
    {t : KernelTree} (ht : t ∈ ts) : IsValid t :=
  (isValid_node_iff.1 h).2.2 t ht

theorem isValid_sumNode {ts : List KernelTree} (hne : ts ≠ []) (h : ∀ t ∈ ts, IsValid t) :
    IsValid (.node .sum ts) :=
  isValid_node_iff.2 ⟨.inl rfl, hne, h⟩

theorem isValid_productNode {ts : List KernelTree} (hne : ts ≠ []) (h : ∀ t ∈ ts, IsValid t) :
    IsValid (.node .product ts) :=
  isValid_node_iff.2 ⟨.inr rfl, hne, h⟩

theorem IsValid.operandsFor_ne_nil {c : Combinator} {t : KernelTree} (h : IsValid t) :
    operandsFor c t ≠ [] := by
  cases t with
  | leaf k => simp [operandsFor]
  | node c' ts =>
    have hts := (isValid_node_iff.1 h).2.1
    by_cases hc : c' = c <;> simp [operandsFor, hc, hts]

theorem IsValid.of_mem_operandsFor {c : Combinator} {s t : KernelTree} (h : IsValid t)
    (hs : s ∈ operandsFor c t) : IsValid s := by
  cases t with
  | leaf k => rwa [List.mem_singleton.1 hs]
  | node c' ts =>
    by_cases hc : c' = c
    · simp only [operandsFor, hc, if_true] at hs
      exact h.children_valid hs
    · simp only [operandsFor, hc, if_false, List.mem_singleton] at hs
      rwa [hs]

theorem length_le_length_flatMap_operandsFor (c : Combinator) {ts : List KernelTree}
    (h : ∀ t ∈ ts, t.IsValid) : ts.length ≤ (ts.flatMap (operandsFor c)).length := by
  induction ts with
  | nil => exact Nat.le_refl _
  | cons t ts ih =>
    have hne : operandsFor c t ≠ [] := (h t (by simp)).operandsFor_ne_nil
    have hpos := List.length_pos_iff.2 hne
    have htail := ih fun s hs ↦ h s (by simp [hs])
    simp only [List.flatMap_cons, List.length_append, List.length_cons]
    omega

theorem isValid_combine {c : Combinator} {ts : List KernelTree} (hc : c = .sum ∨ c = .product)
    (hne : ts ≠ []) (h : ∀ t ∈ ts, IsValid t) : IsValid (combine c ts) := by
  refine isValid_node_iff.2 ⟨hc, ?_, ?_⟩
  · obtain ⟨t, ht⟩ := List.exists_mem_of_ne_nil ts hne
    obtain ⟨s, hs⟩ := List.exists_mem_of_ne_nil _ ((h t ht).operandsFor_ne_nil (c := c))
    exact List.ne_nil_of_mem (List.mem_flatMap.2 ⟨t, ht, hs⟩)
  · intro s hs
    obtain ⟨t, ht, hst⟩ := List.mem_flatMap.1 hs
    exact (h t ht).of_mem_operandsFor hst

theorem isValid_sum {ts : List KernelTree} (hne : ts ≠ []) (h : ∀ t ∈ ts, IsValid t) :
    IsValid (sum ts) :=
  isValid_combine (.inl rfl) hne h

theorem isValid_product {ts : List KernelTree} (hne : ts ≠ []) (h : ∀ t ∈ ts, IsValid t) :
    IsValid (product ts) :=
  isValid_combine (.inr rfl) hne h

theorem isValid_productOrSingle {ts : List KernelTree} (hne : ts ≠ [])
    (h : ∀ t ∈ ts, IsValid t) : IsValid (productOrSingle ts) := by
  unfold productOrSingle
  split
  · next t => exact h t List.mem_cons_self
  · exact isValid_product hne h

theorem IsValid.of_mem_decompose {s t : KernelTree} (h : IsValid t) (hs : s ∈ t.decompose) :
    IsValid s := by
  cases t with
  | leaf k => rwa [List.mem_singleton.1 hs]
  | node c ts =>
    cases c with
    | sum => exact h.children_valid hs
    | product => exact h.children_valid hs
    | changePoint => rwa [List.mem_singleton.1 hs]
    | changeWindow => rwa [List.mem_singleton.1 hs]

end CovarianceSearch.KernelTree
