import CovarianceSearch.KernelTree.Text
import CovarianceSearch.Proofs.BaseKernel
import CovarianceSearch.Proofs.KernelTree.Terms
import CovarianceSearch.Proofs.StableSort
import Mathlib.Data.String.Basic

namespace CovarianceSearch

def monomialText (m : Multiset BaseKernel) : String :=
  " * ".intercalate ((m.map BaseKernel.name).sort (· ≤ ·))

def Terms.text (s : Terms) : String :=
  " + ".intercalate ((s.monomials.map monomialText).sort (· ≤ ·))

def solid (s : String) : List Char := s.toList.filter (· ≠ ' ')

theorem solid_intercalate (sign : String) (parts : List String) :
    solid (sign.intercalate parts) = (solid sign).intercalate (parts.map solid) := by
  simp only [solid, String.toList_intercalate]
  induction parts with
  | nil => rfl
  | cons s parts ih =>
    cases parts with
    | nil => simp only [List.map_cons, List.map_nil, List.intercalate_singleton, solid]
    | cons u parts =>
      simp only [List.map_cons, List.intercalate_cons_cons, List.filter_append] at ih ⊢
      rw [ih]
      rfl

/-- Parts that do not hold the sign they are joined by can be read off the whole. -/
theorem splitOn_solid_intercalate {sign : String} {c : Char} (hsign : solid sign = [c])
    {parts : List String} (hne : parts ≠ []) (hparts : ∀ s ∈ parts, c ∉ solid s) :
    (solid (sign.intercalate parts)).splitOn c = parts.map solid := by
  rw [solid_intercalate, hsign]
  exact List.splitOn_intercalate c (by simpa using hparts) (by simpa using hne)

theorem not_mem_solid_intercalate {sign : String} {c : Char} (hsign : c ∉ solid sign)
    {parts : List String} (hparts : ∀ s ∈ parts, c ∉ solid s) :
    c ∉ solid (sign.intercalate parts) := by
  rw [solid_intercalate]
  induction parts with
  | nil => simp
  | cons s parts ih =>
    have ih := ih fun u hu ↦ hparts u (by simp [hu])
    cases parts with
    | nil => simpa using hparts s (by simp)
    | cons u parts =>
      simp only [List.map_cons, List.intercalate_cons_cons, List.mem_append, not_or] at ih ⊢
      exact ⟨⟨hparts s (by simp), hsign⟩, ih⟩

theorem coe_map_solid_sort (parts : Multiset String) :
    ((parts.sort (· ≤ ·)).map solid : Multiset (List Char)) = parts.map solid := by
  rw [← Multiset.map_coe, Multiset.sort_eq]

theorem solid_name (k : BaseKernel) : solid k.name = k.name.toList :=
  List.filter_eq_self.2 fun c hc ↦ by
    have hword := BaseKernel.isWord_of_mem_name hc
    simp only [ne_eq, decide_not, Bool.not_eq_true', decide_eq_false_iff_not]
    rintro rfl
    exact absurd hword (by decide)

theorem sign_not_mem_name {c : Char} (hc : Token.isWord c = false) (m : Multiset BaseKernel) :
    ∀ s ∈ (m.map BaseKernel.name).sort (· ≤ ·), c ∉ solid s := by
  intro s hs hmem
  obtain ⟨k, -, rfl⟩ := Multiset.mem_map.1 ((Multiset.mem_sort _).1 hs)
  rw [solid_name] at hmem
  exact absurd (BaseKernel.isWord_of_mem_name hmem) (by simp [hc])

theorem splitOn_monomialText {m : Multiset BaseKernel} (hm : m ≠ 0) :
    ((solid (monomialText m)).splitOn '*' : Multiset (List Char)) =
      m.map fun k ↦ k.name.toList := by
  have hne : (m.map BaseKernel.name).sort (· ≤ ·) ≠ [] := by
    rw [← List.length_pos_iff, Multiset.length_sort, Multiset.card_map]
    exact Multiset.card_pos.2 hm
  rw [monomialText, splitOn_solid_intercalate (by decide) hne (sign_not_mem_name (by decide) m),
    coe_map_solid_sort, Multiset.map_map]
  exact Multiset.map_congr rfl fun k _ ↦ solid_name k

theorem monomialText_injective : Function.Injective fun m ↦ solid (monomialText m) := by
  have hnames : Function.Injective fun k : BaseKernel ↦ k.name.toList :=
    fun k l h ↦ BaseKernel.name_injective (String.toList_injective h)
  have hempty (m : Multiset BaseKernel) (h : solid (monomialText 0) = solid (monomialText m)) :
      m = 0 := by
    by_contra hm
    have hsplit := splitOn_monomialText hm
    -- An empty text splits into one empty name, and no kernel has that.
    rw [← h, show solid (monomialText 0) = [] by simp [monomialText, solid], List.splitOn_nil,
      Multiset.coe_singleton] at hsplit
    obtain ⟨k, -, hk⟩ := Multiset.mem_map.1 (hsplit ▸ Multiset.mem_singleton_self [])
    exact BaseKernel.name_toList_ne_nil k hk
  intro m n h
  by_cases hm : m = 0
  · subst hm
    exact (hempty n h).symm
  · by_cases hn : n = 0
    · subst hn
      exact hempty m h.symm
    · have h : solid (monomialText m) = solid (monomialText n) := h
      refine Multiset.map_injective hnames ?_
      rw [← splitOn_monomialText hm, ← splitOn_monomialText hn, h]

theorem splitOn_text {s : Terms} (hs : s.monomials ≠ 0) :
    ((solid s.text).splitOn '+' : Multiset (List Char)) =
      s.monomials.map fun m ↦ solid (monomialText m) := by
  have hne : (s.monomials.map monomialText).sort (· ≤ ·) ≠ [] := by
    rw [← List.length_pos_iff, Multiset.length_sort, Multiset.card_map]
    exact Multiset.card_pos.2 hs
  have hparts : ∀ u ∈ (s.monomials.map monomialText).sort (· ≤ ·), '+' ∉ solid u := by
    intro u hu
    obtain ⟨m, -, rfl⟩ := Multiset.mem_map.1 ((Multiset.mem_sort _).1 hu)
    exact not_mem_solid_intercalate (by decide) (sign_not_mem_name (by decide) m)
  rw [Terms.text, splitOn_solid_intercalate (by decide) hne hparts, coe_map_solid_sort,
    Multiset.map_map]
  rfl

/-- Sums that are not empty have the same text only if they have the same monomials. -/
theorem Terms.text_inj {s t : Terms} (hs : s.monomials ≠ 0) (ht : t.monomials ≠ 0) :
    s.text = t.text ↔ s = t := by
  refine ⟨fun h ↦ ?_, congrArg Terms.text⟩
  ext1
  refine Multiset.map_injective monomialText_injective ?_
  rw [← splitOn_text hs, ← splitOn_text ht, h]

namespace KernelTree

@[simp] theorem textWithin_leaf (k : BaseKernel) (inProduct : Bool) :
    textWithin (.leaf k) inProduct = .ok k.name := rfl

theorem textWithin_node {c : Combinator} {op : Operation} (hc : c.operation = .ok op)
    {ts : List KernelTree} {parts : List String}
    (hparts : List.Forall₂ (fun t s ↦ textWithin t (op = .product) = .ok s) ts parts)
    (inProduct : Bool) : textWithin (.node c ts) inProduct = .ok (joined op inProduct parts) := by
  have hmap : (ts.map textWithin).mapM (· (op = .product)) = .ok parts :=
    Outcome.mapM_eq_ok_iff.2 (List.forall₂_map_left_iff.2 hparts)
  rw [textWithin, OpTree.fold_node, ← textWithin]
  exact Outcome.bind_eq_ok_iff.2 ⟨op, hc, Outcome.bind_eq_ok_iff.2 ⟨parts, hmap, rfl⟩⟩

theorem joined_of_not_bracketed {op : Operation} {inProduct : Bool}
    (h : op = .product ∨ inProduct = false) (parts : List String) :
    joined op inProduct parts = op.sign.intercalate ((parts : Multiset String).sort (· ≤ ·)) := by
  have hbracket : (decide (op = .sum) && inProduct) = false := by
    rcases h with rfl | rfl <;> simp
  rw [joined, hbracket, StableSort.sort_lt_eq]
  rfl

theorem IsMonomial.textWithin_eq {t : KernelTree} (h : IsMonomial t) (inProduct : Bool) :
    textWithin t inProduct = .ok (monomialText t.labels) := by
  cases h with
  | leaf k => simp [monomialText]
  | @product ks hne =>
    have hparts : List.Forall₂ (fun t s ↦ textWithin t (Operation.product = .product) = .ok s)
        (ks.map .leaf) (ks.map BaseKernel.name) := by
      simp [List.forall₂_map_left_iff, List.forall₂_map_right_iff, List.forall₂_same]
    rw [textWithin_node rfl hparts, joined_of_not_bracketed (.inl rfl), labels_node,
      flatMap_labels_leaves]
    rfl

theorem IsExpanded.text_eq {t : KernelTree} (h : IsExpanded t) : t.text = .ok t.terms.text := by
  rw [text, Terms.text, h.monomials_terms, Multiset.map_coe, List.map_map]
  cases h with
  | monomial h => simp [h.textWithin_eq, h.operandsFor_sum]
  | @sum ts hne h =>
    have hparts : List.Forall₂ (fun t s ↦ textWithin t (Operation.sum = .product) = .ok s)
        ts (ts.map fun t ↦ monomialText t.labels) :=
      List.forall₂_map_right_iff.2 (List.forall₂_same.2 fun t ht ↦ (h t ht).textWithin_eq _)
    rw [textWithin_node rfl hparts, joined_of_not_bracketed (.inr rfl)]
    rfl

theorem IsExpanded.monomials_terms_ne_zero {t : KernelTree} (h : IsExpanded t) :
    t.terms.monomials ≠ 0 := by
  rw [h.monomials_terms]
  simpa using h.isValid.operandsFor_ne_nil

/-- The key of a valid tree is the text of its reduced terms. -/
theorem IsValid.text_simplify {t : KernelTree} (h : IsValid t) :
    t.simplify.text = .ok t.terms.reduce.text := by
  rw [h.isExpanded_simplify.text_eq, h.terms_simplify]

theorem IsValid.reduce_ne_zero {t : KernelTree} (h : IsValid t) :
    t.terms.reduce.monomials ≠ 0 :=
  h.terms_simplify ▸ h.isExpanded_simplify.monomials_terms_ne_zero

/-- Keys are sound and complete: simplification reduces the terms of a tree, every valid tree has a
key, and two of them share it exactly when their reduced terms agree. -/
theorem key_eq_iff_terms_eq {t u : KernelTree} (ht : t.validate = .ok ())
    (hu : u.validate = .ok ()) :
    t.simplify.terms.monomials = t.terms.monomials.map reduceMonomial ∧
      ∃ key key', t.simplify.text = .ok key ∧ u.simplify.text = .ok key' ∧
        (key = key' ↔ t.terms.monomials.map reduceMonomial =
          u.terms.monomials.map reduceMonomial) := by
  have ht : IsValid t := ht
  have hu : IsValid u := hu
  refine ⟨congrArg Terms.monomials ht.terms_simplify, _, _, ht.text_simplify, hu.text_simplify, ?_⟩
  rw [Terms.text_inj ht.reduce_ne_zero hu.reduce_ne_zero, Terms.ext_iff]
  rfl

theorem key_eq_iff_terms_eq_noisyRbf :
    validate (.node .product [.node .sum [.leaf .rbf, .leaf .white], .leaf .rbf]) = .ok () ∧
      validate (.node .sum [.leaf .white, .leaf .rbf]) = .ok () ∧
      ∃ key key',
        (simplify (.node .product [.node .sum [.leaf .rbf, .leaf .white], .leaf .rbf])).text =
          .ok key ∧
        (simplify (.node .sum [.leaf .white, .leaf .rbf])).text = .ok key' ∧
        (key = key' ↔
          (terms (.node .product [.node .sum [.leaf .rbf, .leaf .white], .leaf .rbf])).monomials.map
              reduceMonomial =
            (terms (.node .sum [.leaf .white, .leaf .rbf])).monomials.map reduceMonomial) :=
  ⟨rfl, rfl, (key_eq_iff_terms_eq rfl rfl).2⟩

end KernelTree

end CovarianceSearch
