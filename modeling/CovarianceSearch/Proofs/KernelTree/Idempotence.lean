import CovarianceSearch.Proofs.KernelTree.Selection

namespace CovarianceSearch.KernelTree

variable {change : List KernelTree → List KernelTree} {P Q : List KernelTree → Prop}
  {c : Combinator} {t : KernelTree} {ts : List KernelTree}

theorem changeFactors_changeNode (hc : c.operation? = none) :
    changeFactors change (.node c ts) = .node c (ts.map (changeFactors change)) := by
  rw [changeFactors, OpTree.fold_node, ← changeFactors]
  cases c with
  | sum => cases hc
  | product => cases hc
  | changePoint => rfl
  | changeWindow => rfl

theorem sameRoot_changeFactors (h : t.op? ≠ some .product) :
    SameRoot (changeFactors change t) t := by
  cases t with
  | leaf k => exact ⟨rfl, rfl⟩
  | node c ts =>
    rcases c.cases_operation with rfl | rfl | hc
    · rw [changeFactors_sumNode]
      exact ⟨rfl, rfl⟩
    · exact absurd rfl h
    · rw [changeFactors_changeNode hc]
      exact ⟨rfl, rfl⟩

theorem Lacks.map_changeFactors (h : Lacks .product ts) (hc : Lacks c ts) :
    Lacks c (ts.map (changeFactors change)) := by
  intro s hs
  obtain ⟨t, ht, rfl⟩ := List.mem_map.1 hs
  rw [(sameRoot_changeFactors (h t ht)).1]
  exact hc t ht

theorem Lacks.of_subset {us : List KernelTree} (h : Lacks c ts) (hsub : us ⊆ ts) : Lacks c us :=
  fun u hu ↦ h u (hsub hu)

theorem productOrSingle_eq (hlength : ts.length ≠ 1) (h : Lacks .product ts) :
    productOrSingle ts = .node .product ts := by
  unfold productOrSingle
  split
  · exact absurd rfl hlength
  · rw [product, combine_eq_node h]

section changeFactors

theorem isMerged_changeFactors (hsub : ∀ ts, change ts ⊆ ts) (t : KernelTree) :
    (changeFactors change t).IsMerged := by
  induction t using OpTree.induction with
  | leaf k => exact ⟨.leaf k, .leaf k⟩
  | node c ts ih =>
    have hts : ∀ t ∈ ts.map (changeFactors change), t.IsMerged := List.forall_mem_map.2 ih
    rcases c.cases_operation with rfl | rfl | hc
    · rw [changeFactors_sumNode]
      exact isMerged_combine hts
    · rw [changeFactors_productNode]
      have hchanged : ∀ t ∈ change (ts.map (changeFactors change)), t.IsMerged :=
        fun t ht ↦ hts t (hsub _ ht)
      unfold productOrSingle
      split
      · next t heq => exact hchanged t (heq ▸ List.mem_cons_self)
      · exact isMerged_combine hchanged
    · rw [changeFactors_changeNode hc]
      exact isMerged_changeNode hc hts

/-- Where no product is a factor of another, what `change` makes of the factors of a product is what
the product is left with. -/
theorem EveryNode.changeFactors (h : t.EveryNode .product P) (hsub : ∀ ts, change ts ⊆ ts)
    (hP : ∀ ts, P ts → Lacks .product ts)
    (hQ : ∀ ts, P ts → Q (change (ts.map (KernelTree.changeFactors change)))) :
    (t.changeFactors change).EveryNode .product fun ts ↦ ts.length ≠ 1 ∧ Q ts := by
  induction h with
  | leaf k => exact .leaf k
  | @node c ts h _ ih =>
    have hts : ∀ t ∈ ts.map (KernelTree.changeFactors change),
        t.EveryNode .product fun ts ↦ ts.length ≠ 1 ∧ Q ts := List.forall_mem_map.2 ih
    rcases c.cases_operation with rfl | rfl | hc
    · rw [changeFactors_sumNode]
      exact everyNode_combine hts nofun
    · have hlacks := hP ts (h rfl)
      have hchanged : Lacks .product (change (ts.map (KernelTree.changeFactors change))) :=
        (hlacks.map_changeFactors hlacks).of_subset (hsub _)
      rw [changeFactors_productNode]
      by_cases hlength : (change (ts.map (KernelTree.changeFactors change))).length = 1
      · obtain ⟨t, ht⟩ := List.length_eq_one_iff.1 hlength
        rw [ht]
        exact hts t (hsub _ (ht ▸ List.mem_cons_self))
      · rw [productOrSingle_eq hlength hchanged]
        exact .node (fun _ ↦ ⟨hlength, hQ ts (h rfl)⟩) fun t ht ↦ hts t (hsub _ ht)
    · rw [changeFactors_changeNode hc]
      exact everyNode_changeNode hc nofun hts

theorem IsMerged.changeFactors_eq_self (h : t.IsMerged)
    (hfixed : t.EveryNode .product fun ts ↦ ts.length ≠ 1 ∧ change ts = ts) :
    changeFactors change t = t := by
  induction t using OpTree.induction with
  | leaf k => rfl
  | node c ts ih =>
    obtain ⟨hnode, hts⟩ := everyNode_node_iff.1 hfixed
    have hmap : ts.map (changeFactors change) = ts := by
      rw [List.map_congr_left fun t ht ↦ ih t ht (h.of_mem ht) (hts t ht), List.map_id']
    rcases c.cases_operation with rfl | rfl | hc
    · have hlacks := (everyNode_node_iff.1 h.sums).1 rfl
      rw [changeFactors_sumNode, hmap, sum, combine_eq_node hlacks]
    · have hlacks := (everyNode_node_iff.1 h.products).1 rfl
      obtain ⟨hlength, hchange⟩ := hnode rfl
      rw [changeFactors_productNode, hmap, hchange, productOrSingle_eq hlength hlacks]
    · rw [changeFactors_changeNode hc, hmap]

end changeFactors

section simplify

/-- Whether a tree is multiplied out and neither pass over its products has anything to do. -/
structure IsSimplified (t : KernelTree) : Prop extends t.IsMultipliedOut where
  reduced : t.EveryNode .product fun ts ↦
    ts.length ≠ 1 ∧ singleRbf ts = ts ∧ absorbIntoWhite ts = ts

theorem IsMultipliedOut.changeFactors (h : t.IsMultipliedOut) (hsub : ∀ ts, change ts ⊆ ts) :
    (t.changeFactors change).IsMultipliedOut := by
  refine ⟨isMerged_changeFactors hsub t, ?_⟩
  have hfactors : (t.changeFactors change).EveryNode .product
      fun ts ↦ ts.length ≠ 1 ∧ Lacks .sum ts := by
    apply (h.products.and h.factors).changeFactors hsub
    · intro ts hts
      exact hts.1
    · intro ts hts
      exact (hts.1.map_changeFactors hts.2).of_subset (hsub _)
  exact hfactors.mono fun ts hts ↦ hts.2

theorem isSimplified_simplify (t : KernelTree) : t.simplify.IsSimplified := by
  have hd := isMultipliedOut_distribute t
  have hm : (mergeRbfs t.distribute).IsMultipliedOut := hd.changeFactors singleRbf_subset
  have hmerged : (mergeRbfs t.distribute).EveryNode .product
      fun ts ↦ ts.length ≠ 1 ∧ singleRbf ts = ts := by
    apply hd.products.changeFactors singleRbf_subset
    · intro ts hts
      exact hts
    · intro ts _
      exact isSelection_singleRbf.idem _
  refine ⟨hm.changeFactors absorbIntoWhite_subset, ?_⟩
  apply (hm.products.and hmerged).changeFactors absorbIntoWhite_subset
  · intro ts hts
    exact hts.1
  · intro ts hts
    obtain ⟨hlacks, -, hrbf⟩ := hts
    refine ⟨singleRbf_absorbIntoWhite ?_, isSelection_absorbIntoWhite.idem _⟩
    rw [isSelection_singleRbf.map_of_sameRoot fun t ht ↦ sameRoot_changeFactors (hlacks t ht), hrbf]

theorem IsSimplified.simplify_eq (h : t.IsSimplified) : t.simplify = t := by
  have hrbf : mergeRbfs t = t :=
    h.toIsMerged.changeFactors_eq_self (h.reduced.mono fun ts hts ↦ ⟨hts.1, hts.2.1⟩)
  have hwhite : absorbWhiteProducts t = t :=
    h.toIsMerged.changeFactors_eq_self (h.reduced.mono fun ts hts ↦ ⟨hts.1, hts.2.2⟩)
  rw [simplify, h.toIsMultipliedOut.distribute_eq, hrbf, hwhite]

/-- Simplifying once is enough for every tree, also for one that stands for no covariance
function. -/
theorem simplify_idempotent (t : KernelTree) : t.simplify.simplify = t.simplify :=
  (isSimplified_simplify t).simplify_eq

end simplify

section passes

theorem IsValid.changeFactors (h : t.IsValid) (hsel : IsSelection change) :
    (t.changeFactors change).IsValid := by
  induction t using OpTree.induction with
  | leaf k => exact h
  | node c ts ih =>
    obtain ⟨hc, hne, hts⟩ := isValid_node_iff.1 h
    have hchanged : ∀ t ∈ ts.map (KernelTree.changeFactors change), t.IsValid :=
      List.forall_mem_map.2 fun t ht ↦ ih t ht (hts t ht)
    have hne' : ts.map (KernelTree.changeFactors change) ≠ [] := by simpa using hne
    rcases hc with rfl | rfl
    · rw [changeFactors_sumNode]
      exact isValid_sum hne' hchanged
    · rw [changeFactors_productNode]
      exact isValid_productOrSingle (hsel.ne_nil hne') fun t ht ↦ hchanged t (hsel.subset _ ht)

theorem IsValid.two_le_length_changeFactors (h : t.IsValid) (hsel : IsSelection change) :
    (t.changeFactors change).EveryNode .product fun ts ↦ 2 ≤ ts.length := by
  induction t using OpTree.induction with
  | leaf k => exact .leaf k
  | node c ts ih =>
    obtain ⟨hc, hne, hts⟩ := isValid_node_iff.1 h
    have hlengths : ∀ t ∈ ts.map (KernelTree.changeFactors change),
        t.EveryNode .product fun ts ↦ 2 ≤ ts.length :=
      List.forall_mem_map.2 fun t ht ↦ ih t ht (hts t ht)
    rcases hc with rfl | rfl
    · rw [changeFactors_sumNode]
      exact everyNode_combine hlengths nofun
    · rw [changeFactors_productNode]
      have hvalid : ∀ t ∈ change (ts.map (KernelTree.changeFactors change)), t.IsValid := by
        intro s hs
        obtain ⟨t, ht, rfl⟩ := List.mem_map.1 (hsel.subset _ hs)
        exact (hts t ht).changeFactors hsel
      have hpos : 0 < (change (ts.map (KernelTree.changeFactors change))).length :=
        List.length_pos_iff.2 (hsel.ne_nil (by simpa using hne))
      unfold productOrSingle
      split
      · next t heq => exact hlengths t (hsel.subset _ (heq ▸ List.mem_cons_self))
      · next hsingle =>
        have hle := length_le_length_flatMap_operandsFor .product hvalid
        have hone : (change (ts.map (KernelTree.changeFactors change))).length ≠ 1 := by
          intro hone
          obtain ⟨t, ht⟩ := List.length_eq_one_iff.1 hone
          exact hsingle t ht
        refine everyNode_combine (fun t ht ↦ hlengths t (hsel.subset _ ht)) fun _ ↦ ?_
        omega

theorem IsSelection.op?_changeFactors_ne_sum (hsel : IsSelection change)
    (hlengths : t.EveryNode .product fun ts ↦ 2 ≤ ts.length) (h : t.op? ≠ some .sum) :
    (t.changeFactors change).op? ≠ some .sum := by
  by_cases hproduct : t.op? = some .product
  · cases hlengths with
    | leaf k => cases hproduct
    | @node c ts hlength _ =>
      obtain rfl := Option.some_inj.1 hproduct
      rw [changeFactors_productNode]
      unfold productOrSingle
      split
      · next t heq =>
        have hleaf := hsel.isLeaf_of_eq_singleton (by simpa using hlength rfl) heq
        cases t with
        | leaf k => exact nofun
        | node c ts => cases hleaf
      · exact nofun
  · rwa [(sameRoot_changeFactors hproduct).1]

theorem IsSelection.of_productNode_eq (hsel : IsSelection change) (hlacks : Lacks .product ts)
    (h : changeFactors change (.node .product ts) = .node .product ts) :
    ts.map (changeFactors change) = ts ∧ change ts = ts := by
  have hchanged : Lacks .product (change (ts.map (changeFactors change))) :=
    (hlacks.map_changeFactors hlacks).of_subset (hsel.subset _)
  rw [changeFactors_productNode] at h
  by_cases hlength : (change (ts.map (changeFactors change))).length = 1
  · obtain ⟨t, ht⟩ := List.length_eq_one_iff.1 hlength
    rw [ht] at h
    have hproduct : t.op? = some .product := congrArg OpTree.op? h
    exact absurd hproduct (hchanged t (ht ▸ List.mem_cons_self))
  · rw [productOrSingle_eq hlength hchanged] at h
    have heq : change (ts.map (changeFactors change)) = ts := (OpTree.node.inj h).2
    have hchange : change ts = ts := by
      calc change ts
          = change (change (ts.map (changeFactors change))) := by rw [heq]
        _ = ts := by rw [hsel.idem, heq]
    -- The choice is made by the roots, so that it is the same before the factors are changed.
    have hroots := hsel.map_of_sameRoot (g := changeFactors change)
      fun t ht ↦ sameRoot_changeFactors (hlacks t ht)
    rw [heq, hchange] at hroots
    exact ⟨hroots.symm, hchange⟩

/-- A pass that leaves a tree as it is has nothing to do at any of its products. -/
theorem IsSelection.everyNode_of_changeFactors_eq (hsel : IsSelection change) (hmerged : t.IsMerged)
    (hlengths : t.EveryNode .product fun ts ↦ 2 ≤ ts.length) (h : t.changeFactors change = t) :
    t.EveryNode .product fun ts ↦ change ts = ts := by
  induction t using OpTree.induction with
  | leaf k => exact .leaf k
  | node c ts ih =>
    have hlengths' := (everyNode_node_iff.1 hlengths).2
    suffices hnode : ts.map (changeFactors change) = ts ∧ (c = .product → change ts = ts) by
      have heq := List.map_inj_left.1 (hnode.1.trans (List.map_id' ts).symm)
      exact .node hnode.2 fun t ht ↦ ih t ht (hmerged.of_mem ht) (hlengths' t ht) (heq t ht)
    rcases c.cases_operation with rfl | rfl | hc
    · have hlacks : Lacks .sum (ts.map (changeFactors change)) := by
        refine List.forall_mem_map.2 fun t ht ↦ ?_
        exact hsel.op?_changeFactors_ne_sum (hlengths' t ht)
          ((everyNode_node_iff.1 hmerged.sums).1 rfl t ht)
      rw [changeFactors_sumNode, sum, combine_eq_node hlacks] at h
      refine ⟨(OpTree.node.inj h).2, ?_⟩
      intro hproduct
      cases hproduct
    · obtain ⟨hmap, hchange⟩ :=
        hsel.of_productNode_eq ((everyNode_node_iff.1 hmerged.products).1 rfl) h
      exact ⟨hmap, fun _ ↦ hchange⟩
    · rw [changeFactors_changeNode hc] at h
      refine ⟨(OpTree.node.inj h).2, ?_⟩
      intro hproduct
      rw [hproduct] at hc
      cases hc

theorem IsSelection.changeFactors_idem_iff (hsel : IsSelection change) (h : t.IsValid) :
    (t.changeFactors change).changeFactors change = t.changeFactors change ↔
      (t.changeFactors change).EveryNode .product fun ts ↦ change ts = ts := by
  have hmerged := isMerged_changeFactors hsel.subset t
  have hlengths := h.two_le_length_changeFactors hsel
  constructor
  · intro heq
    exact hsel.everyNode_of_changeFactors_eq hmerged hlengths heq
  · intro hfixed
    refine hmerged.changeFactors_eq_self ((hlengths.and hfixed).mono fun ts hts ↦ ⟨?_, hts.2⟩)
    have hlength := hts.1
    omega

theorem IsSelection.everyNode_changeFactors (hsel : IsSelection change)
    (h : t.EveryNode .product (Lacks .product)) :
    (t.changeFactors change).EveryNode .product fun ts ↦ change ts = ts := by
  have hchanged : (t.changeFactors change).EveryNode .product
      fun ts ↦ ts.length ≠ 1 ∧ change ts = ts := by
    apply h.changeFactors hsel.subset
    · intro ts hts
      exact hts
    · intro ts _
      exact hsel.idem _
  exact hchanged.mono fun ts hts ↦ hts.2

/-- Multiplying out is idempotent, and so are the two passes over the products where no product is a
factor of another. In general such a pass is idempotent exactly where its own result has the form
that it is to bring about: the operands that flattening brings into a product are not looked at
before a second run. -/
theorem passes_idempotent_iff (h : t.validate = .ok ()) :
    t.distribute.distribute = t.distribute ∧
      (t.mergeRbfs.mergeRbfs = t.mergeRbfs ↔ t.mergeRbfs.EveryNode .product HasRbfLast) ∧
      (t.absorbWhiteProducts.absorbWhiteProducts = t.absorbWhiteProducts ↔
        t.absorbWhiteProducts.EveryNode .product HasWhiteFirst) ∧
      (t.EveryNode .product (Lacks .product) →
        t.mergeRbfs.EveryNode .product HasRbfLast ∧
          t.absorbWhiteProducts.EveryNode .product HasWhiteFirst) ∧
      t.mergeRbfs.mergeRbfs.EveryNode .product HasRbfLast ∧
      t.absorbWhiteProducts.absorbWhiteProducts.EveryNode .product HasWhiteFirst := by
  have hrbf := isSelection_singleRbf.changeFactors_idem_iff h
  have hwhite := isSelection_absorbIntoWhite.changeFactors_idem_iff h
  simp only [singleRbf_eq_self_iff] at hrbf
  simp only [absorbIntoWhite_eq_self_iff] at hwhite
  have hforms : ∀ {s : KernelTree}, s.EveryNode .product (Lacks .product) →
      s.mergeRbfs.EveryNode .product HasRbfLast ∧
        s.absorbWhiteProducts.EveryNode .product HasWhiteFirst := by
    intro s hlacks
    constructor
    · exact (isSelection_singleRbf.everyNode_changeFactors hlacks).mono
        fun ts ↦ singleRbf_eq_self_iff.1
    · exact (isSelection_absorbIntoWhite.everyNode_changeFactors hlacks).mono
        fun ts ↦ absorbIntoWhite_eq_self_iff.1
  refine ⟨(isMultipliedOut_distribute t).distribute_eq, hrbf, hwhite, hforms, ?_, ?_⟩
  · exact (hforms (isMerged_changeFactors singleRbf_subset t).products).1
  · exact (hforms (isMerged_changeFactors absorbIntoWhite_subset t).products).2

example : absorbWhiteProducts (.node .product
      [.leaf .rbf, .node .product [.leaf .white, .leaf .linear]]) =
    .node .product [.leaf .rbf, .leaf .white, .leaf .linear] := by decide

def smoothTrend : KernelTree :=
  .node .product [.leaf .rbf, .node .product [.leaf .rbf, .leaf .linear]]

theorem passes_idempotent_iff_smoothTrend :
    smoothTrend.validate = .ok () ∧ smoothTrend.mergeRbfs.mergeRbfs ≠ smoothTrend.mergeRbfs ∧
      ¬ smoothTrend.mergeRbfs.EveryNode .product HasRbfLast ∧
      smoothTrend.mergeRbfs.mergeRbfs.EveryNode .product HasRbfLast := by
  obtain ⟨-, hrbf, -, -, htwice, -⟩ := passes_idempotent_iff (t := smoothTrend) rfl
  have hne : smoothTrend.mergeRbfs.mergeRbfs ≠ smoothTrend.mergeRbfs := by decide
  exact ⟨rfl, hne, mt hrbf.2 hne, htwice⟩

end passes

end CovarianceSearch.KernelTree
