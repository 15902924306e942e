import CovarianceSearch.Proofs.KernelTree.Validity
import CovarianceSearch.Proofs.KernelTree.Value

namespace CovarianceSearch.KernelTree

inductive IsMonomial : KernelTree → Prop
  | leaf (k : BaseKernel) : IsMonomial (.leaf k)
  | product {ks : List BaseKernel} (hne : ks ≠ []) : IsMonomial (.node .product (ks.map .leaf))

inductive IsExpanded : KernelTree → Prop
  | monomial {t : KernelTree} (h : IsMonomial t) : IsExpanded t
  | sum {ts : List KernelTree} (hne : ts ≠ []) (h : ∀ t ∈ ts, IsMonomial t) :
      IsExpanded (.node .sum ts)

@[simp] theorem labels_leaf (k : BaseKernel) : (.leaf k : KernelTree).labels = [k] := rfl

@[simp] theorem labels_node (c : Combinator) (ts : List KernelTree) :
    (.node c ts : KernelTree).labels = ts.flatMap OpTree.labels :=
  OpTree.labels_node c ts

@[simp] theorem flatMap_labels_leaves (ks : List BaseKernel) :
    (ks.map .leaf : List KernelTree).flatMap OpTree.labels = ks := by
  induction ks with
  | nil => rfl
  | cons k ks ih => simp [ih]

theorem IsMonomial.labels_ne_nil {t : KernelTree} (h : IsMonomial t) : t.labels ≠ [] := by
  cases h with
  | leaf k => simp
  | product hne => simpa using hne

theorem IsMonomial.operandsFor_sum {t : KernelTree} (h : IsMonomial t) :
    operandsFor .sum t = [t] := by
  cases h <;> rfl

theorem IsMonomial.operandsFor_product {t : KernelTree} (h : IsMonomial t) :
    operandsFor .product t = t.labels.map .leaf := by
  cases h <;> simp [operandsFor]

theorem IsMonomial.isValid {t : KernelTree} (h : IsMonomial t) : IsValid t := by
  cases h with
  | leaf k => exact isValid_leaf k
  | product hne => exact isValid_productNode (by simpa using hne) (by simp [isValid_leaf])

theorem IsExpanded.isValid {t : KernelTree} (h : IsExpanded t) : IsValid t := by
  cases h with
  | monomial h => exact h.isValid
  | sum hne h => exact isValid_sumNode hne fun t ht ↦ (h t ht).isValid

theorem sum_eq_node {ts : List KernelTree} (h : ∀ t ∈ ts, operandsFor .sum t = [t]) :
    sum ts = .node .sum ts := by
  rw [sum, combine]
  congr 1
  induction ts with
  | nil => rfl
  | cons t ts ih =>
    rw [List.flatMap_cons, h t (by simp), ih fun s hs ↦ h s (by simp [hs])]
    rfl

theorem product_eq_node {ts : List KernelTree} (h : ∀ t ∈ ts, IsMonomial t) :
    product ts = .node .product ((ts.flatMap OpTree.labels).map .leaf) := by
  rw [product, combine]
  congr 1
  induction ts with
  | nil => rfl
  | cons t ts ih =>
    rw [List.flatMap_cons, List.flatMap_cons, List.map_append,
      (h t (by simp)).operandsFor_product, ih fun s hs ↦ h s (by simp [hs])]

theorem isMonomial_product {ts : List KernelTree} (hne : ts ≠ []) (h : ∀ t ∈ ts, IsMonomial t) :
    IsMonomial (product ts) := by
  rw [product_eq_node h]
  refine .product ?_
  obtain ⟨t, ht⟩ := List.exists_mem_of_ne_nil ts hne
  obtain ⟨k, hk⟩ := List.exists_mem_of_ne_nil _ (h t ht).labels_ne_nil
  exact List.ne_nil_of_mem (List.mem_flatMap.2 ⟨t, ht, hk⟩)

theorem isMonomial_productOrSingle {ts : List KernelTree} (hne : ts ≠ [])
    (h : ∀ t ∈ ts, IsMonomial t) : IsMonomial (productOrSingle ts) := by
  match ts with
  | [t] => exact h t (by simp)
  | t :: u :: ts => exact isMonomial_product hne h

theorem IsExpanded.isMonomial_of_mem {s t : KernelTree} (h : IsExpanded t)
    (hs : s ∈ operandsFor .sum t) : IsMonomial s := by
  cases h with
  | monomial h =>
    rw [h.operandsFor_sum, List.mem_singleton] at hs
    rwa [hs]
  | sum hne h => exact h s hs

theorem isExpanded_sum {ts : List KernelTree} (hne : ts ≠ []) (h : ∀ t ∈ ts, IsExpanded t) :
    IsExpanded (sum ts) := by
  refine .sum ?_ ?_
  · obtain ⟨t, ht⟩ := List.exists_mem_of_ne_nil ts hne
    obtain ⟨s, hs⟩ := List.exists_mem_of_ne_nil _ ((h t ht).isValid.operandsFor_ne_nil (c := .sum))
    exact List.ne_nil_of_mem (List.mem_flatMap.2 ⟨t, ht, hs⟩)
  · intro s hs
    obtain ⟨t, ht, hst⟩ := List.mem_flatMap.1 hs
    exact (h t ht).isMonomial_of_mem hst

theorem mem_picks_iff {p ts : List KernelTree} :
    p ∈ picks ts ↔ List.Forall₂ (fun s t ↦ s ∈ operandsFor .sum t) p ts := by
  induction ts generalizing p with
  | nil => cases p <;> simp [picks]
  | cons t ts ih =>
    simp only [picks, List.mem_flatMap, List.mem_map, ih, List.forall₂_cons_right_iff]
    constructor
    · rintro ⟨s, hs, q, hq, rfl⟩
      exact ⟨s, q, hs, hq, rfl⟩
    · rintro ⟨s, q, hs, hq, rfl⟩
      exact ⟨s, hs, q, hq, rfl⟩

theorem picks_ne_nil {ts : List KernelTree} (h : ∀ t ∈ ts, IsExpanded t) : picks ts ≠ [] := by
  suffices ∃ p, p ∈ picks ts from List.ne_nil_of_mem this.choose_spec
  induction ts with
  | nil => exact ⟨[], by simp [picks]⟩
  | cons t ts ih =>
    obtain ⟨p, hp⟩ := ih fun s hs ↦ h s (by simp [hs])
    have ht := (h t (by simp)).isValid.operandsFor_ne_nil (c := .sum)
    obtain ⟨s, hs⟩ := List.exists_mem_of_ne_nil _ ht
    exact ⟨s :: p, mem_picks_iff.2 (.cons hs (mem_picks_iff.1 hp))⟩

theorem isMonomial_of_mem_pick {p ts : List KernelTree} (h : ∀ t ∈ ts, IsExpanded t)
    (hp : p ∈ picks ts) : ∀ s ∈ p, IsMonomial s := by
  have hforall := mem_picks_iff.1 hp
  clear hp
  induction hforall with
  | nil => simp
  | @cons s t p ts hs _ ih =>
    intro r hr
    rcases List.mem_cons.1 hr with rfl | hr
    · exact (h t (by simp)).isMonomial_of_mem hs
    · exact ih (fun u hu ↦ h u (by simp [hu])) r hr

theorem isMonomial_of_not_isSum {t : KernelTree} (h : IsExpanded t) (hs : t.isSum = false) :
    IsMonomial t := by
  cases h with
  | monomial h => exact h
  | sum => simp [isSum] at hs

theorem isExpanded_expandProduct {ts : List KernelTree} (hne : ts ≠ [])
    (h : ∀ t ∈ ts, IsExpanded t) : IsExpanded (expandProduct ts) := by
  unfold expandProduct
  split
  · refine isExpanded_sum (by simpa using picks_ne_nil h) fun s hs ↦ ?_
    obtain ⟨p, hp, rfl⟩ := List.mem_map.1 hs
    have hlen := (mem_picks_iff.1 hp).length_eq
    have hpne : p ≠ [] := by
      rintro rfl
      exact hne (List.eq_nil_of_length_eq_zero hlen.symm)
    exact .monomial (isMonomial_productOrSingle hpne (isMonomial_of_mem_pick h hp))
  · next hany =>
    rw [List.any_eq_true, not_exists] at hany
    refine .monomial (isMonomial_product hne fun t ht ↦ isMonomial_of_not_isSum (h t ht) ?_)
    simpa [ht] using hany t

/-- Multiplied out, a valid tree is a sum of monomials. -/
theorem IsValid.isExpanded_distribute {t : KernelTree} (h : IsValid t) :
    IsExpanded t.distribute := by
  induction t using OpTree.induction with
  | leaf k => exact .monomial (.leaf k)
  | node c ts ih =>
    obtain ⟨hc, hne, hts⟩ := isValid_node_iff.1 h
    have hne' : ts.map distribute ≠ [] := by simpa using hne
    have hall : ∀ s ∈ ts.map distribute, IsExpanded s := by
      intro s hs
      obtain ⟨t, ht, rfl⟩ := List.mem_map.1 hs
      exact ih t ht (hts t ht)
    rcases hc with rfl | rfl
    · rw [distribute_sumNode]
      exact isExpanded_sum hne' hall
    · rw [distribute_productNode]
      exact isExpanded_expandProduct hne' hall

end CovarianceSearch.KernelTree
