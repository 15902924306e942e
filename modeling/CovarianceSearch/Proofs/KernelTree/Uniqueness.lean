import CovarianceSearch.Proofs.KernelTree.MultipliedOut
import CovarianceSearch.Proofs.KernelTree.NormalForm
import CovarianceSearch.Proofs.KernelTree.Reordering

namespace CovarianceSearch.KernelTree

def collapsed (t : KernelTree) : KernelTree :=
  match operandsFor .sum t with
  | [s] => s
  | _ => t

def hasSum : KernelTree → Bool := OpTree.fold (fun _ ↦ false) fun c parts ↦ c = .sum || parts.any id

variable {c : Combinator} {s t u : KernelTree} {ts us : List KernelTree}

theorem hasSum_node : hasSum (.node c ts) = (decide (c = .sum) || ts.any hasSum) := by
  rw [hasSum, OpTree.fold_node, List.any_map]
  rfl

theorem isSum_mapMonomials (g : List BaseKernel → List BaseKernel) (t : KernelTree) :
    (mapMonomials g t).isSum = t.isSum := by
  have hmonomial (ks : List BaseKernel) : (monomial ks).isSum = false := by
    rcases monomial_eq ks with ⟨k, -, h⟩ | h <;> rw [h] <;> rfl
  unfold mapMonomials
  split
  · rfl
  · next hsum =>
    rw [hmonomial]
    cases t with
    | leaf k => rfl
    | node c ts =>
      cases c with
      | sum => exact absurd rfl (hsum ts)
      | _ => rfl

theorem isSum_expandProduct (ts : List KernelTree) : (expandProduct ts).isSum = ts.any isSum := by
  unfold expandProduct
  split
  · next h => exact h.symm
  · next h => exact (Bool.eq_false_iff.2 h).symm

theorem IsValid.isSum_distribute (h : IsValid t) : t.distribute.isSum = t.hasSum := by
  induction t using OpTree.induction with
  | leaf k => rfl
  | node c ts ih =>
    obtain ⟨hc, -, hts⟩ := isValid_node_iff.1 h
    rcases hc with rfl | rfl
    · rw [distribute_sumNode, hasSum_node]
      rfl
    · have hmap : ts.map (isSum ∘ distribute) = ts.map hasSum :=
        List.map_congr_left fun t ht ↦ ih t ht (hts t ht)
      have hany : ts.any (isSum ∘ distribute) = ts.any hasSum := by
        simpa [List.any_map] using congrArg (List.any · id) hmap
      rw [distribute_productNode, isSum_expandProduct, List.any_map, hany, hasSum_node]
      rfl

theorem IsValid.isSum_simplify (h : IsValid t) : t.simplify.isSum = t.hasSum := by
  rw [h.simplify_eq, isSum_mapMonomials, h.isSum_distribute]

theorem IsValid.isNormal_simplify (h : IsValid t) : IsNormal t.simplify := by
  rw [h.simplify_eq]
  exact h.isExpanded_distribute.isNormal_mapMonomials

theorem eq_node_of_isSum (h : t.isSum = true) : t = .node .sum (operandsFor .sum t) := by
  cases t with
  | leaf k => cases h
  | node c ts =>
    cases c with
    | sum => rfl
    | _ => cases h

theorem operandsFor_of_not_isSum (h : t.isSum = false) : operandsFor .sum t = [t] := by
  apply operandsFor_eq_singleton
  rw [← Bool.not_eq_true, isSum_iff] at h
  exact h

theorem IsNormal.isNormalTerm_of_mem (h : IsNormal t) (hs : s ∈ operandsFor .sum t) :
    IsNormalTerm s := by
  cases h with
  | term h =>
    have hone : operandsFor .sum t = [t] := by cases h <;> rfl
    rw [hone, List.mem_singleton] at hs
    rwa [hs]
  | sum hne h => exact h s hs

/-- Terms in normal form are known by their factors. -/
theorem IsNormalTerm.reorders (hs : IsNormalTerm s) (ht : IsNormalTerm t)
    (h : s.labels.Perm t.labels) : Reorders s t := by
  have hlength := h.length_eq
  cases hs with
  | leaf k =>
    cases ht with
    | leaf l =>
      obtain rfl : k = l := by simpa using h
      exact .refl _
    | product hlength' _ =>
      rw [labels_node, flatMap_labels_leaves, labels_leaf, List.length_singleton] at hlength
      omega
  | product hlength' _ =>
    cases ht with
    | leaf l =>
      rw [labels_node, flatMap_labels_leaves, labels_leaf, List.length_singleton] at hlength
      omega
    | product _ _ =>
      rw [labels_node, labels_node, flatMap_labels_leaves, flatMap_labels_leaves] at h
      exact .node (h.map _)

theorem exists_reorders (hts : ∀ t ∈ ts, IsNormalTerm t) (hus : ∀ u ∈ us, IsNormalTerm u)
    (h : (ts.map fun t ↦ (t.labels : Multiset BaseKernel)).Perm
      (us.map fun u ↦ (u.labels : Multiset BaseKernel))) :
    ∃ vs, List.Forall₂ Reorders ts vs ∧ vs.Perm us := by
  have hpairs : List.Forall₂ (fun m u ↦ m = (u.labels : Multiset BaseKernel) ∧ IsNormalTerm u)
      (us.map fun u ↦ (u.labels : Multiset BaseKernel)) us :=
    List.forall₂_map_left_iff.2 (List.forall₂_same.2 fun u hu ↦ ⟨rfl, hus u hu⟩)
  obtain ⟨vs, hvs, hperm⟩ := List.perm_comp_forall₂ h hpairs
  refine ⟨vs, ?_, hperm⟩
  have hvs := (List.forall₂_and_left ts vs).2 ⟨hts, List.forall₂_map_left_iff.1 hvs⟩
  exact hvs.imp fun t u ⟨ht, hlabels, hu⟩ ↦ ht.reorders hu (Multiset.coe_eq_coe.1 hlabels)

theorem IsNormalTerm.isMonomial (h : IsNormalTerm t) : IsMonomial t := by
  cases h with
  | leaf k => exact .leaf k
  | product hlength _ =>
    refine .product ?_
    rintro rfl
    cases hlength

theorem IsNormal.isExpanded (h : IsNormal t) : IsExpanded t := by
  cases h with
  | term h => exact .monomial h.isMonomial
  | sum hne h => exact .sum hne fun t ht ↦ (h t ht).isMonomial

theorem IsExpanded.text_eq_iff (ht : IsExpanded t) (hu : IsExpanded u) :
    t.text = u.text ↔ t.terms = u.terms := by
  rw [ht.text_eq, hu.text_eq, Except.ok.injEq,
    Terms.text_inj ht.monomials_terms_ne_zero hu.monomials_terms_ne_zero]

theorem IsNormal.collapsed (h : IsNormal t) :
    IsNormal t.collapsed ∧ t.collapsed.terms = t.terms := by
  unfold KernelTree.collapsed
  split
  · next s hs =>
    have hterm : IsNormalTerm s :=
      h.isNormalTerm_of_mem (by rw [hs]; exact List.mem_singleton_self s)
    refine ⟨.term hterm, ?_⟩
    ext1
    rw [h.isExpanded.monomials_terms, hs, hterm.isMonomial.terms_eq]
    rfl
  · exact ⟨h, rfl⟩

theorem collapsed_eq_node (h : ∀ s, operandsFor .sum t ≠ [s]) :
    t.collapsed = .node .sum (operandsFor .sum t) := by
  have hsum : t.isSum = true := by
    by_contra hsum
    exact h t (operandsFor_of_not_isSum (Bool.eq_false_iff.2 hsum))
  unfold KernelTree.collapsed
  split
  · next s hs => exact absurd hs (h s)
  · exact eq_node_of_isSum hsum

section

variable (ht : IsNormal t) (hu : IsNormal u)

include ht hu

theorem IsNormal.exists_reorders (h : t.terms = u.terms) : ∃ vs,
    List.Forall₂ Reorders (operandsFor .sum t) vs ∧ vs.Perm (operandsFor .sum u) := by
  have hmonomials := congrArg Terms.monomials h
  rw [ht.isExpanded.monomials_terms, hu.isExpanded.monomials_terms] at hmonomials
  exact KernelTree.exists_reorders (fun _ ↦ ht.isNormalTerm_of_mem)
    (fun _ ↦ hu.isNormalTerm_of_mem) (Multiset.coe_eq_coe.1 hmonomials)

theorem IsNormal.reorders_collapsed (h : t.terms = u.terms) :
    Reorders t.collapsed u.collapsed := by
  obtain ⟨vs, hvs, hperm⟩ := ht.exists_reorders hu h
  have hlength := hvs.length_eq.trans hperm.length_eq
  by_cases hone : ∃ s, operandsFor .sum t = [s]
  · obtain ⟨s, hs⟩ := hone
    rw [hs] at hvs hlength
    obtain ⟨v, hv⟩ := List.length_eq_one_iff.1 hlength.symm
    rw [hv, List.perm_singleton] at hperm
    subst hperm
    obtain ⟨hsv, -⟩ := List.forall₂_cons.1 hvs
    rw [KernelTree.collapsed, KernelTree.collapsed, hs, hv]
    exact hsv
  · have hone' : ∀ s, operandsFor .sum u ≠ [s] := by
      intro s hs
      rw [hs] at hlength
      exact hone (List.length_eq_one_iff.1 hlength)
    rw [collapsed_eq_node fun s hs ↦ hone ⟨s, hs⟩, collapsed_eq_node hone']
    exact reorders_node hvs hperm

theorem IsNormal.reorders_collapsed_iff :
    Reorders t.collapsed u.collapsed ↔ t.terms = u.terms := by
  refine ⟨fun h ↦ ?_, ht.reorders_collapsed hu⟩
  obtain ⟨ht', htext⟩ := ht.collapsed
  obtain ⟨hu', hutext⟩ := hu.collapsed
  have htext' := ht'.isExpanded.text_eq
  rw [← htext, ← hutext, ← ht'.isExpanded.text_eq_iff hu'.isExpanded, htext']
  exact (h.text_eq_iff.1 htext').symm

theorem IsNormal.reorders_iff :
    Reorders t u ↔ t.terms = u.terms ∧ t.isSum = u.isSum := by
  constructor
  · intro h
    have htext := ht.isExpanded.text_eq
    refine ⟨?_, ?_⟩
    · rw [← ht.isExpanded.text_eq_iff hu.isExpanded, htext]
      exact (h.text_eq_iff.1 htext).symm
    · rw [Bool.eq_iff_iff, isSum_iff, isSum_iff, h.op?_eq]
  · intro h
    obtain ⟨hterms, hsum⟩ := h
    cases htsum : t.isSum with
    | true =>
      obtain ⟨vs, hvs, hperm⟩ := ht.exists_reorders hu hterms
      have htnode := eq_node_of_isSum htsum
      have hunode := eq_node_of_isSum (hsum ▸ htsum)
      rw [htnode, hunode]
      exact reorders_node hvs hperm
    | false =>
      have hcollapsed {s : KernelTree} (hs : s.isSum = false) : s.collapsed = s := by
        rw [KernelTree.collapsed, operandsFor_of_not_isSum hs]
      have h := ht.reorders_collapsed hu hterms
      rwa [hcollapsed htsum, hcollapsed (hsum ▸ htsum)] at h

end

/-- Simplified, two valid trees with the same key are the same up to the order of operands if a sum
of a single operand is taken for that operand. Such sums are kept by simplification, so that the
trees themselves are the same if there is a sum in both of them or in neither. -/
theorem reorders_simplify_iff (ht : t.validate = .ok ()) (hu : u.validate = .ok ()) :
    ∃ key key', t.simplify.text = .ok key ∧ u.simplify.text = .ok key' ∧
      (Reorders t.simplify.collapsed u.simplify.collapsed ↔ key = key') ∧
      (Reorders t.simplify u.simplify ↔ key = key' ∧ t.hasSum = u.hasSum) := by
  have ht : IsValid t := ht
  have hu : IsValid u := hu
  have htnormal := ht.isNormal_simplify
  have hunormal := hu.isNormal_simplify
  have hkey : t.simplify.terms.text = u.simplify.terms.text ↔ t.simplify.terms = u.simplify.terms :=
    Terms.text_inj htnormal.isExpanded.monomials_terms_ne_zero
      hunormal.isExpanded.monomials_terms_ne_zero
  refine ⟨_, _, htnormal.isExpanded.text_eq, hunormal.isExpanded.text_eq, ?_, ?_⟩
  · rw [hkey, htnormal.reorders_collapsed_iff hunormal]
  · rw [hkey, htnormal.reorders_iff hunormal, ht.isSum_simplify, hu.isSum_simplify]

def lone : KernelTree := .leaf .rbf

def loneInSum : KernelTree := .node .sum [.leaf .rbf]

theorem reorders_simplify_iff_lone :
    lone.validate = .ok () ∧ loneInSum.validate = .ok () ∧ lone.simplify = lone ∧
      loneInSum.simplify = loneInSum ∧ lone.simplify.text = .ok "rbf" ∧
      loneInSum.simplify.text = .ok "rbf" ∧ ¬ Reorders lone.simplify loneInSum.simplify ∧
      Reorders lone.simplify.collapsed loneInSum.simplify.collapsed := by
  have htext : lone.simplify.text = .ok "rbf" := by decide
  have htext' : loneInSum.simplify.text = .ok "rbf" := by decide
  obtain ⟨key, key', hkey, hkey', hcollapsed, hreorders⟩ :=
    reorders_simplify_iff (t := lone) (u := loneInSum) rfl rfl
  rw [htext] at hkey
  rw [htext'] at hkey'
  have hsame : key = key' := (Except.ok.inj hkey).symm.trans (Except.ok.inj hkey')
  refine ⟨rfl, rfl, rfl, rfl, htext, htext', ?_, hcollapsed.2 hsame⟩
  intro h
  exact absurd (hreorders.1 h).2 (by decide)

end CovarianceSearch.KernelTree
