import CovarianceSearch.Proofs.KernelTree.Alike
import Mathlib.Algebra.BigOperators.Group.List.Lemmas
import Mathlib.Algebra.Order.BigOperators.Group.List
import Mathlib.Algebra.Order.BigOperators.Ring.List

namespace CovarianceSearch

namespace Terms

def count : Terms →+* ℕ where
  toFun s := s.monomials.card
  map_zero' := rfl
  map_one' := rfl
  map_add' s t := Multiset.card_add s.monomials t.monomials
  map_mul' s t := by simp

theorem count_eq (s : Terms) : s.count = s.monomials.card := rfl

/-- What a sum of monomials consists of: its monomials or, if there is one only, its factors. -/
def parts (s : Terms) : Multiset Terms :=
  if s.count = 1 then s.monomials.bind fun m ↦ m.map fun k ↦ .single {k}
  else s.monomials.map .single

theorem parts_single (ks : List BaseKernel) :
    (single ks).parts = (ks.map fun k ↦ single {k} : List Terms) := by
  have hone : (single ks).count = 1 := Multiset.card_singleton (ks : Multiset BaseKernel)
  rw [parts, if_pos hone]
  simp

end Terms

namespace KernelTree

/-- Whether every sum in a tree has two operands or more. -/
def HasProperSums : KernelTree → Prop :=
  OpTree.fold (fun _ ↦ True) fun c parts ↦ (c = .sum → 2 ≤ parts.length) ∧ ∀ part ∈ parts, part

@[simp] theorem hasProperSums_leaf (k : BaseKernel) : HasProperSums (.leaf k) := trivial

@[simp] theorem hasProperSums_node_iff {c : Combinator} {ts : List KernelTree} :
    HasProperSums (.node c ts) ↔ (c = .sum → 2 ≤ ts.length) ∧ ∀ t ∈ ts, HasProperSums t := by
  rw [HasProperSums, OpTree.fold_node, List.forall_mem_map, List.length_map]

theorem HasProperSums.of_mem_operandsFor {c : Combinator} {s t : KernelTree}
    (h : HasProperSums t) (hs : s ∈ operandsFor c t) : HasProperSums s := by
  cases t with
  | leaf k => rwa [List.mem_singleton.1 hs]
  | node c' ts =>
    by_cases hc : c' = c
    · simp only [operandsFor, hc, if_true] at hs
      exact (hasProperSums_node_iff.1 h).2 s hs
    · simp only [operandsFor, hc, if_false, List.mem_singleton] at hs
      rwa [hs]

theorem HasProperSums.of_mem_decompose {s t : KernelTree} (h : HasProperSums t)
    (hs : s ∈ t.decompose) : HasProperSums s := by
  cases t with
  | leaf k => rwa [List.mem_singleton.1 hs]
  | node c ts =>
    cases c with
    | sum => exact (hasProperSums_node_iff.1 h).2 s hs
    | product => exact (hasProperSums_node_iff.1 h).2 s hs
    | changePoint => rwa [List.mem_singleton.1 hs]
    | changeWindow => rwa [List.mem_singleton.1 hs]

theorem hasProperSums_combine {c : Combinator} {t u : KernelTree} (ht : t.IsValid)
    (hu : u.IsValid) (ht' : HasProperSums t) (hu' : HasProperSums u) :
    HasProperSums (combine c [t, u]) := by
  have hvalid : ∀ s ∈ [t, u], s.IsValid := by simp [ht, hu]
  refine hasProperSums_node_iff.2 ⟨fun _ ↦ length_le_length_flatMap_operandsFor c hvalid, ?_⟩
  intro s hs
  obtain ⟨v, hv, hsv⟩ := List.mem_flatMap.1 hs
  have hv' : HasProperSums v := by
    obtain rfl | rfl : v = t ∨ v = u := by simpa using hv
    · exact ht'
    · exact hu'
  exact hv'.of_mem_operandsFor hsv

theorem IsValid.count_pos {t : KernelTree} (h : IsValid t) : 0 < t.terms.count := by
  have hne := h.isExpanded_distribute.monomials_terms_ne_zero
  rw [terms_distribute] at hne
  exact Multiset.card_pos.2 hne

theorem count_sumNode (ts : List KernelTree) :
    (terms (.node .sum ts)).count = (ts.map fun t ↦ (terms t).count).sum := by
  rw [terms_sumNode, map_list_sum, List.map_map]
  rfl

theorem count_productNode (ts : List KernelTree) :
    (terms (.node .product ts)).count = (ts.map fun t ↦ (terms t).count).prod := by
  rw [terms_productNode, map_list_prod, List.map_map]
  rfl

theorem IsValid.two_le_count {t : KernelTree} (h : IsValid t) (hsums : HasProperSums t)
    (hsum : t.distribute.isSum = true) : 2 ≤ t.terms.count := by
  induction t using OpTree.induction with
  | leaf k => cases hsum
  | node c ts ih =>
    obtain ⟨hc, -, hts⟩ := isValid_node_iff.1 h
    obtain ⟨hlength, hproper⟩ := hasProperSums_node_iff.1 hsums
    have hpos : ∀ n ∈ ts.map fun t ↦ (terms t).count, 1 ≤ n := by
      intro n hn
      obtain ⟨t, ht, rfl⟩ := List.mem_map.1 hn
      exact (hts t ht).count_pos
    rcases hc with rfl | rfl
    · rw [count_sumNode]
      have hle := List.length_le_sum_of_one_le _ hpos
      rw [List.length_map] at hle
      exact (hlength rfl).trans hle
    · -- The product is only multiplied out if a factor is a sum, and no factor is empty.
      rw [distribute_productNode, expandProduct] at hsum
      split at hsum
      · next hany =>
        obtain ⟨s, hs, hissum⟩ := List.any_eq_true.1 hany
        obtain ⟨t, ht, rfl⟩ := List.mem_map.1 hs
        have htwo := ih t ht (hts t ht) (hproper t ht) hissum
        have hdvd : (terms t).count ∣ (ts.map fun t ↦ (terms t).count).prod :=
          List.dvd_prod (List.mem_map_of_mem ht)
        rw [count_productNode]
        exact htwo.trans (Nat.le_of_dvd (List.prod_pos hpos) hdvd)
      · cases hsum

/-- Simplified, a tree is a monomial or a sum of several monomials. -/
theorem IsValid.simplify_cases {t : KernelTree} (h : IsValid t) (hsums : HasProperSums t) :
    (∃ ks, ks ≠ [] ∧ t.simplify = monomial ks) ∨
      ∃ kss : List (List BaseKernel), 2 ≤ kss.length ∧ (∀ ks ∈ kss, ks ≠ []) ∧
        t.simplify = .node .sum (kss.map monomial) := by
  rw [h.simplify_eq]
  have hexpanded := h.isExpanded_distribute
  generalize hd : t.distribute = d at hexpanded
  cases hexpanded with
  | monomial hm =>
    exact .inl ⟨_, reduceFactors_ne_nil _ hm.labels_ne_nil, hm.mapMonomials_eq _⟩
  | @sum ts hne hts =>
    have htwo := h.two_le_count hsums (by rw [hd]; rfl)
    rw [← terms_distribute, hd, Terms.count_eq, (IsExpanded.sum hne hts).monomials_terms] at htwo
    refine .inr ⟨ts.map fun s ↦ reduceFactors s.labels, by simpa [operandsFor] using htwo, ?_, ?_⟩
    · intro ks hks
      obtain ⟨s, hs, rfl⟩ := List.mem_map.1 hks
      exact reduceFactors_ne_nil _ (hts s hs).labels_ne_nil
    · rw [mapMonomials_sumNode, List.map_map]
      rfl

theorem hasProperSums_monomial (ks : List BaseKernel) : HasProperSums (monomial ks) := by
  rcases monomial_eq ks with ⟨k, rfl, -⟩ | h
  · trivial
  · rw [h]
    simp

theorem IsValid.hasProperSums_simplify {t : KernelTree} (h : IsValid t)
    (hsums : HasProperSums t) : HasProperSums t.simplify := by
  rcases h.simplify_cases hsums with ⟨ks, -, heq⟩ | ⟨kss, hlength, -, heq⟩
  · rw [heq]
    exact hasProperSums_monomial ks
  · rw [heq]
    simp [hlength, hasProperSums_monomial]

theorem decompose_monomial {ks : List BaseKernel} (hne : ks ≠ []) :
    decompose (monomial ks) = ks.map .leaf := by
  rcases monomial_eq ks with ⟨k, rfl, h⟩ | h
  · rfl
  · rw [h]
    rfl

/-- What a simplified tree is taken apart into depends on its terms only. -/
theorem IsValid.terms_decompose_simplify {t : KernelTree} (h : IsValid t)
    (hsums : HasProperSums t) :
    (t.simplify.decompose.map terms : Multiset Terms) = t.simplify.terms.parts := by
  rcases h.simplify_cases hsums with ⟨ks, hne, heq⟩ | ⟨kss, hlength, -, heq⟩
  · rw [heq, decompose_monomial hne, terms_monomial, Terms.parts_single, List.map_map]
    rfl
  · have hterms : ((kss.map monomial).map terms) = (kss.map Multiset.ofList).map .single := by
      simp [terms_monomial]
    have hmonomials : (terms (.node .sum (kss.map monomial))).monomials =
        (kss.map Multiset.ofList : List (Multiset BaseKernel)) := by
      rw [terms_sumNode, hterms, Terms.monomials_sum_single]
    have hcount : (terms (.node .sum (kss.map monomial))).count ≠ 1 := by
      rw [Terms.count_eq, hmonomials, Multiset.coe_card, List.length_map]
      omega
    rw [heq, decompose, hterms, Terms.parts, if_neg hcount, hmonomials, Multiset.map_coe]

theorem perm_keys_decompose {t u : KernelTree} (h : Alike t u) (ht : HasProperSums t)
    (hu : HasProperSums u) :
    (t.simplify.decompose.map (·.simplify.text)).Perm
      (u.simplify.decompose.map (·.simplify.text)) := by
  have hkeys {s : KernelTree} (hs : s.IsValid) : s.simplify.decompose.map (·.simplify.text) =
      (s.simplify.decompose.map terms).map fun part : Terms ↦ .ok part.reduce.text := by
    rw [List.map_map]
    exact List.map_congr_left fun part hpart ↦
      (hs.isValid_simplify.of_mem_decompose hpart).text_simplify
  have hparts : (t.simplify.decompose.map terms : Multiset Terms) =
      (u.simplify.decompose.map terms : List Terms) := by
    rw [h.left.terms_decompose_simplify ht, h.right.terms_decompose_simplify hu,
      h.left.terms_simplify, h.right.terms_simplify, h.terms]
  rw [hkeys h.left, hkeys h.right]
  exact (Multiset.coe_eq_coe.1 hparts).map _

end KernelTree

end CovarianceSearch
