import CovarianceSearch.Proofs.KernelTree.Expanded

namespace CovarianceSearch

theorem Combinator.cases_operation (c : Combinator) :
    c = .sum ∨ c = .product ∨ c.operation? = none := by
  cases c <;> simp [operation?]

namespace KernelTree

universe u

/-- Whether `P` holds of the operands of every combination by `c` in a tree. -/
inductive EveryNode (c : Combinator) (P : List KernelTree → Prop) : KernelTree → Prop
  | leaf (k : BaseKernel) : EveryNode c P (.leaf k)
  | node {c' : Combinator} {ts : List KernelTree} (h : c' = c → P ts)
      (hts : ∀ t ∈ ts, EveryNode c P t) : EveryNode c P (.node c' ts)

def Lacks (c : Combinator) (ts : List KernelTree) : Prop := ∀ t ∈ ts, t.op? ≠ some c

/-- Whether nested sums and nested products have been merged. -/
structure IsMerged (t : KernelTree) : Prop where
  sums : t.EveryNode .sum (Lacks .sum)
  products : t.EveryNode .product (Lacks .product)

/-- Whether, beyond that, no product is left that has a sum for a factor. -/
structure IsMultipliedOut (t : KernelTree) : Prop extends t.IsMerged where
  factors : t.EveryNode .product (Lacks .sum)

variable {c c' : Combinator} {P Q : List KernelTree → Prop} {s t : KernelTree}
  {ts : List KernelTree}

theorem everyNode_node_iff :
    EveryNode c P (.node c' ts) ↔ (c' = c → P ts) ∧ ∀ t ∈ ts, t.EveryNode c P := by
  constructor
  · intro h
    cases h with
    | node h hts => exact ⟨h, hts⟩
  · intro h
    exact .node h.1 h.2

theorem IsMerged.of_mem (h : IsMerged (.node c ts)) (ht : t ∈ ts) : t.IsMerged :=
  ⟨(everyNode_node_iff.1 h.sums).2 t ht, (everyNode_node_iff.1 h.products).2 t ht⟩

theorem EveryNode.mono (h : t.EveryNode c P) (hPQ : ∀ ts, P ts → Q ts) : t.EveryNode c Q := by
  induction h with
  | leaf k => exact .leaf k
  | node h _ ih => exact .node (fun hc ↦ hPQ _ (h hc)) ih

theorem EveryNode.and (hP : t.EveryNode c P) (hQ : t.EveryNode c Q) :
    t.EveryNode c fun ts ↦ P ts ∧ Q ts := by
  induction hP with
  | leaf k => exact .leaf k
  | node h _ ih =>
    obtain ⟨h', hts⟩ := everyNode_node_iff.1 hQ
    exact .node (fun hc ↦ ⟨h hc, h' hc⟩) fun t ht ↦ ih t ht (hts t ht)

theorem everyNode_changeNode (hc : c.operation? = none) (hc' : c'.operation? ≠ none)
    (h : ∀ t ∈ ts, t.EveryNode c' P) : EveryNode c' P (.node c ts) :=
  .node (fun heq ↦ absurd (heq ▸ hc) hc') h

theorem isMerged_changeNode (hc : c.operation? = none) (h : ∀ t ∈ ts, t.IsMerged) :
    IsMerged (.node c ts) :=
  ⟨everyNode_changeNode hc nofun fun t ht ↦ (h t ht).sums,
    everyNode_changeNode hc nofun fun t ht ↦ (h t ht).products⟩

theorem operandsFor_eq_singleton (h : t.op? ≠ some c) : operandsFor c t = [t] := by
  cases t with
  | leaf k => rfl
  | node c' ts => exact if_neg fun hc ↦ h (congrArg some hc)

theorem combine_eq_node (h : Lacks c ts) : combine c ts = .node c ts := by
  have hoperands : ts.flatMap (operandsFor c) = ts.flatMap ([·]) :=
    List.flatMap_congr fun t ht ↦ operandsFor_eq_singleton (h t ht)
  rw [combine, hoperands, List.flatMap_singleton']

section combine

theorem EveryNode.of_mem_operandsFor (h : t.EveryNode c P) (hs : s ∈ operandsFor c' t) :
    s.EveryNode c P := by
  cases h with
  | leaf k =>
    rw [List.mem_singleton.1 hs]
    exact .leaf k
  | @node d ts h hts =>
    by_cases hd : d = c'
    · rw [operandsFor, if_pos hd] at hs
      exact hts s hs
    · rw [operandsFor, if_neg hd, List.mem_singleton] at hs
      rw [hs]
      exact .node h hts

theorem EveryNode.op?_of_mem_operandsFor (h : t.EveryNode c (Lacks c))
    (hs : s ∈ operandsFor c t) : s.op? ≠ some c := by
  cases h with
  | leaf k =>
    rw [List.mem_singleton.1 hs]
    exact nofun
  | @node d ts h hts =>
    by_cases hd : d = c
    · rw [operandsFor, if_pos hd] at hs
      exact h hd s hs
    · rw [operandsFor, if_neg hd, List.mem_singleton] at hs
      rw [hs]
      exact fun hop ↦ hd (Option.some_inj.1 hop)

theorem everyNode_combine (hts : ∀ t ∈ ts, t.EveryNode c P)
    (h : c' = c → P (ts.flatMap (operandsFor c'))) : (combine c' ts).EveryNode c P := by
  refine .node h fun s hs ↦ ?_
  obtain ⟨t, ht, hst⟩ := List.mem_flatMap.1 hs
  exact (hts t ht).of_mem_operandsFor hst

theorem lacks_flatMap_operandsFor (h : ∀ t ∈ ts, t.EveryNode c (Lacks c)) :
    Lacks c (ts.flatMap (operandsFor c)) := by
  intro s hs
  obtain ⟨t, ht, hst⟩ := List.mem_flatMap.1 hs
  exact (h t ht).op?_of_mem_operandsFor hst

/-- One level of merging is enough where the operands have been merged. -/
theorem isMerged_combine (h : ∀ t ∈ ts, t.IsMerged) : (combine c ts).IsMerged := by
  constructor
  · apply everyNode_combine fun t ht ↦ (h t ht).sums
    rintro rfl
    exact lacks_flatMap_operandsFor fun t ht ↦ (h t ht).sums
  · apply everyNode_combine fun t ht ↦ (h t ht).products
    rintro rfl
    exact lacks_flatMap_operandsFor fun t ht ↦ (h t ht).products

end combine

section distribute

theorem isMultipliedOut_leaf (k : BaseKernel) : IsMultipliedOut (.leaf k) :=
  ⟨⟨.leaf k, .leaf k⟩, .leaf k⟩

theorem isMultipliedOut_changeNode (hc : c.operation? = none)
    (h : ∀ t ∈ ts, t.IsMultipliedOut) : IsMultipliedOut (.node c ts) :=
  ⟨isMerged_changeNode hc fun t ht ↦ (h t ht).toIsMerged,
    everyNode_changeNode hc nofun fun t ht ↦ (h t ht).factors⟩

theorem isMultipliedOut_sum (h : ∀ t ∈ ts, t.IsMultipliedOut) : (sum ts).IsMultipliedOut :=
  ⟨isMerged_combine fun t ht ↦ (h t ht).toIsMerged,
    everyNode_combine (fun t ht ↦ (h t ht).factors) nofun⟩

theorem isMultipliedOut_product (h : ∀ t ∈ ts, t.IsMultipliedOut) (hsum : Lacks .sum ts) :
    (product ts).IsMultipliedOut := by
  refine ⟨isMerged_combine fun t ht ↦ (h t ht).toIsMerged,
    everyNode_combine (fun t ht ↦ (h t ht).factors) fun _ s hs ↦ ?_⟩
  obtain ⟨t, ht, hst⟩ := List.mem_flatMap.1 hs
  by_cases hproduct : t.op? = some .product
  · cases (h t ht).factors with
    | leaf k => cases hproduct
    | node hfactors _ =>
      obtain rfl := Option.some_inj.1 hproduct
      exact hfactors rfl s hst
  · rw [operandsFor_eq_singleton hproduct, List.mem_singleton] at hst
    rw [hst]
    exact hsum t ht

theorem isMultipliedOut_productOrSingle (h : ∀ t ∈ ts, t.IsMultipliedOut)
    (hsum : Lacks .sum ts) : (productOrSingle ts).IsMultipliedOut := by
  unfold productOrSingle
  split
  · next t => exact h t List.mem_cons_self
  · exact isMultipliedOut_product h hsum

theorem IsMultipliedOut.of_mem_operandsFor (h : t.IsMultipliedOut) (hs : s ∈ operandsFor c t) :
    s.IsMultipliedOut :=
  ⟨⟨h.sums.of_mem_operandsFor hs, h.products.of_mem_operandsFor hs⟩,
    h.factors.of_mem_operandsFor hs⟩

theorem isMultipliedOut_of_mem_picks (h : ∀ t ∈ ts, t.IsMultipliedOut) {pick : List KernelTree}
    (hpick : pick ∈ picks ts) : (∀ s ∈ pick, s.IsMultipliedOut) ∧ Lacks .sum pick := by
  have hpick := mem_picks_iff.1 hpick
  have hsummand : ∀ s ∈ pick, ∃ t ∈ ts, s ∈ operandsFor .sum t := by
    intro s hs
    obtain ⟨i, hi, rfl⟩ := List.getElem_of_mem hs
    have hi' : i < ts.length := hpick.length_eq ▸ hi
    exact ⟨_, List.getElem_mem hi', hpick.get hi hi'⟩
  constructor
  · intro s hs
    obtain ⟨t, ht, hst⟩ := hsummand s hs
    exact (h t ht).of_mem_operandsFor hst
  · intro s hs
    obtain ⟨t, ht, hst⟩ := hsummand s hs
    exact (h t ht).sums.op?_of_mem_operandsFor hst

theorem isSum_iff : t.isSum = true ↔ t.op? = some .sum := by
  cases t with
  | leaf k => exact ⟨nofun, nofun⟩
  | node c ts => cases c <;> simp [isSum, OpTree.op?]

theorem any_isSum_eq_false_iff : ts.any isSum = false ↔ Lacks .sum ts := by
  rw [List.any_eq_false]
  exact forall₂_congr fun t _ ↦ not_congr isSum_iff

theorem isMultipliedOut_expandProduct (h : ∀ t ∈ ts, t.IsMultipliedOut) :
    (expandProduct ts).IsMultipliedOut := by
  unfold expandProduct
  split
  · apply isMultipliedOut_sum
    intro s hs
    obtain ⟨pick, hpick, rfl⟩ := List.mem_map.1 hs
    obtain ⟨hfactors, hsum⟩ := isMultipliedOut_of_mem_picks h hpick
    exact isMultipliedOut_productOrSingle hfactors hsum
  · next hany =>
    apply isMultipliedOut_product h
    exact any_isSum_eq_false_iff.1 (Bool.eq_false_iff.2 hany)

theorem distribute_changeNode (hc : c.operation? = none) :
    distribute (.node c ts) = .node c (ts.map distribute) := by
  rw [distribute, OpTree.fold_node, ← distribute]
  cases c with
  | sum => cases hc
  | product => cases hc
  | changePoint => rfl
  | changeWindow => rfl

theorem isMultipliedOut_distribute (t : KernelTree) : t.distribute.IsMultipliedOut := by
  induction t using OpTree.induction with
  | leaf k => exact isMultipliedOut_leaf k
  | node c ts ih =>
    have hts : ∀ t ∈ ts.map distribute, t.IsMultipliedOut := List.forall_mem_map.2 ih
    rcases c.cases_operation with rfl | rfl | hc
    · rw [distribute_sumNode]
      exact isMultipliedOut_sum hts
    · rw [distribute_productNode]
      exact isMultipliedOut_expandProduct hts
    · rw [distribute_changeNode hc]
      exact isMultipliedOut_changeNode hc hts

theorem IsMultipliedOut.of_mem (h : IsMultipliedOut (.node c ts)) (ht : t ∈ ts) :
    t.IsMultipliedOut :=
  ⟨h.toIsMerged.of_mem ht, (everyNode_node_iff.1 h.factors).2 t ht⟩

theorem IsMultipliedOut.distribute_eq (h : t.IsMultipliedOut) : t.distribute = t := by
  induction t using OpTree.induction with
  | leaf k => rfl
  | node c ts ih =>
    have hmap : ts.map distribute = ts := by
      rw [List.map_congr_left fun t ht ↦ ih t ht (h.of_mem ht), List.map_id']
    rcases c.cases_operation with rfl | rfl | hc
    · have hsum := (everyNode_node_iff.1 h.sums).1 rfl
      rw [distribute_sumNode, hmap, sum, combine_eq_node hsum]
    · have hsum := (everyNode_node_iff.1 h.factors).1 rfl
      have hproduct := (everyNode_node_iff.1 h.products).1 rfl
      rw [distribute_productNode, hmap, expandProduct, any_isSum_eq_false_iff.2 hsum,
        if_neg Bool.false_ne_true, product, combine_eq_node hproduct]
    · rw [distribute_changeNode hc, hmap]

/-- However a tree is built, multiplying it out leaves no sum or product below a product and no sum
below a sum, and keeps the value of the tree. -/
theorem distribute_multiplies_out (t : KernelTree) :
    t.distribute.EveryNode .product (Lacks .sum) ∧
      t.distribute.EveryNode .product (Lacks .product) ∧
      t.distribute.EveryNode .sum (Lacks .sum) ∧
      ∀ (R : Type u) [CommSemiring R] (f : BaseKernel → R) (point window : List R → R),
        value f point window t.distribute = value f point window t := by
  have h := isMultipliedOut_distribute t
  refine ⟨h.factors, h.products, h.sums, ?_⟩
  intro R _ f point window
  exact value_distribute f point window t

end distribute

end KernelTree

end CovarianceSearch
