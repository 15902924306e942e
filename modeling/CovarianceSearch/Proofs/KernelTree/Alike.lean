import CovarianceSearch.Proofs.KernelTree.Key

namespace CovarianceSearch

theorem count_reduceMonomial (k : BaseKernel) (m : Multiset BaseKernel) :
    (reduceMonomial m).count k =
      if .white ∈ m then if k = .white then 1 else if k.isStationary then 0 else m.count k
      else if k = .rbf then min 1 (m.count k) else m.count k := by
  unfold reduceMonomial
  split
  · rw [Multiset.count_cons, Multiset.count_filter]
    by_cases hk : k = .white
    · subst hk
      have hwhite : BaseKernel.white.isStationary = true := rfl
      simp [hwhite]
    · by_cases hs : k.isStationary = true <;> simp [hk, hs]
  · rw [Multiset.count_add, Multiset.count_filter, Multiset.count_replicate]
    by_cases hk : k = .rbf
    · subst hk
      simp
    · simp [hk, Ne.symm hk]

theorem white_mem_reduceMonomial {m : Multiset BaseKernel} :
    .white ∈ reduceMonomial m ↔ .white ∈ m := by
  rw [← Multiset.count_pos, count_reduceMonomial]
  by_cases h : .white ∈ m <;> simp [h]

/-- A factor may be reduced before it is multiplied with others. -/
theorem reduceMonomial_add_left (m n : Multiset BaseKernel) :
    reduceMonomial (reduceMonomial m + n) = reduceMonomial (m + n) := by
  ext k
  have hwhite : .white ∈ reduceMonomial m + n ↔ .white ∈ m + n := by
    rw [Multiset.mem_add, Multiset.mem_add, white_mem_reduceMonomial]
  rw [count_reduceMonomial, count_reduceMonomial, Multiset.count_add, Multiset.count_add,
    count_reduceMonomial]
  by_cases h : .white ∈ m + n
  · rw [if_pos (hwhite.2 h), if_pos h]
    by_cases hk : k = .white
    · simp [hk]
    · by_cases hs : k.isStationary = true
      · simp [hs]
      · -- What white noise leaves is not stationary, so no RBF factor is among it.
        have hrbf : k ≠ .rbf := KernelTree.isStationary_ne_rbf (Bool.eq_false_iff.2 hs)
        simp [hk, hs, hrbf]
  · have hm : .white ∉ m := fun hm ↦ h (Multiset.mem_add.2 (.inl hm))
    rw [if_neg (mt hwhite.1 h), if_neg h, if_neg hm]
    by_cases hk : k = .rbf
    · simp only [if_pos hk]
      omega
    · simp only [if_neg hk]

theorem reduceMonomial_idem (m : Multiset BaseKernel) :
    reduceMonomial (reduceMonomial m) = reduceMonomial m := by
  have h := reduceMonomial_add_left m 0
  rwa [add_zero, add_zero] at h

namespace Terms

theorem reduce_add (s t : Terms) : (s + t).reduce = s.reduce + t.reduce := by
  ext1
  exact Multiset.map_add ..

theorem reduce_idem (s : Terms) : s.reduce.reduce = s.reduce := by
  ext1
  simp only [reduce, Multiset.map_map, Function.comp_def, reduceMonomial_idem]

theorem reduce_mul_left (s t : Terms) : (s.reduce * t).reduce = (s * t).reduce := by
  ext1
  simp only [reduce, monomials_mul, Multiset.map_bind, Multiset.bind_map, Multiset.map_map,
    Function.comp_def, reduceMonomial_add_left]

theorem reduce_mul_congr {s s' t t' : Terms} (hs : s.reduce = s'.reduce)
    (ht : t.reduce = t'.reduce) : (s * t).reduce = (s' * t').reduce := by
  calc (s * t).reduce
      = (t * s').reduce := by rw [← reduce_mul_left, hs, reduce_mul_left, mul_comm]
    _ = (s' * t').reduce := by rw [← reduce_mul_left, ht, reduce_mul_left, mul_comm]

end Terms

namespace KernelTree

/-- Two valid trees that come to the same when they are multiplied out and reduced. -/
structure Alike (t u : KernelTree) : Prop where
  left : t.IsValid
  right : u.IsValid
  terms : t.terms.reduce = u.terms.reduce

theorem IsValid.alike {t : KernelTree} (h : t.IsValid) : Alike t t := ⟨h, h, rfl⟩

theorem IsValid.simplify_alike {t : KernelTree} (h : t.IsValid) : Alike t.simplify t :=
  ⟨h.isValid_simplify, h, by rw [h.terms_simplify, Terms.reduce_idem]⟩

theorem Alike.symm {t u : KernelTree} (h : Alike t u) : Alike u t := ⟨h.right, h.left, h.terms.symm⟩

theorem Alike.trans {t u v : KernelTree} (h : Alike t u) (h' : Alike u v) : Alike t v :=
  ⟨h.left, h'.right, h.terms.trans h'.terms⟩

theorem Alike.text_simplify {t u : KernelTree} (h : Alike t u) :
    t.simplify.text = u.simplify.text := by
  rw [h.left.text_simplify, h.right.text_simplify, h.terms]

/-- Trees are alike exactly if they have the same key. -/
theorem alike_iff {t u : KernelTree} (ht : t.IsValid) (hu : u.IsValid) :
    Alike t u ↔ t.simplify.text = u.simplify.text := by
  refine ⟨Alike.text_simplify, fun h ↦ ⟨ht, hu, ?_⟩⟩
  rw [ht.text_simplify, hu.text_simplify] at h
  exact (Terms.text_inj ht.reduce_ne_zero hu.reduce_ne_zero).1 (Except.ok.inj h)

section

variable {ts us : List KernelTree}

theorem isValid_of_forall₂_alike (h : List.Forall₂ Alike ts us) :
    (∀ t ∈ ts, t.IsValid) ∧ ∀ u ∈ us, u.IsValid := by
  induction h with
  | nil => simp
  | cons hab _ ih => simpa using ⟨⟨hab.left, ih.1⟩, hab.right, ih.2⟩

theorem reduce_sum_congr (h : List.Forall₂ Alike ts us) :
    (ts.map terms).sum.reduce = (us.map terms).sum.reduce := by
  induction h with
  | nil => rfl
  | cons hab _ ih =>
    simp only [List.map_cons, List.sum_cons, Terms.reduce_add]
    rw [hab.terms, ih]

theorem reduce_prod_congr (h : List.Forall₂ Alike ts us) :
    (ts.map terms).prod.reduce = (us.map terms).prod.reduce := by
  induction h with
  | nil => rfl
  | cons hab _ ih =>
    simp only [List.map_cons, List.prod_cons]
    exact Terms.reduce_mul_congr hab.terms ih

theorem alike_node {c : Combinator} (hc : c = .sum ∨ c = .product) (hne : ts ≠ [])
    (h : List.Forall₂ Alike ts us) : Alike (.node c ts) (.node c us) := by
  obtain ⟨hts, hus⟩ := isValid_of_forall₂_alike h
  have hne' : us ≠ [] := by
    rintro rfl
    exact hne (List.forall₂_nil_right_iff.1 h)
  refine ⟨isValid_node_iff.2 ⟨hc, hne, hts⟩, isValid_node_iff.2 ⟨hc, hne', hus⟩, ?_⟩
  rcases hc with rfl | rfl
  · rw [terms_sumNode, terms_sumNode, reduce_sum_congr h]
  · rw [terms_productNode, terms_productNode, reduce_prod_congr h]

theorem terms_sum (ts : List KernelTree) : terms (sum ts) = (ts.map terms).sum := value_sum ..

theorem terms_product (ts : List KernelTree) : terms (product ts) = (ts.map terms).prod :=
  value_product ..

/-- Taking in the operands of like combinations keeps what a node comes to. -/
theorem combine_alike_node {c : Combinator} (hc : c = .sum ∨ c = .product) (hne : ts ≠ [])
    (h : ∀ t ∈ ts, t.IsValid) : Alike (combine c ts) (.node c ts) := by
  refine ⟨isValid_combine hc hne h, isValid_node_iff.2 ⟨hc, hne, h⟩, ?_⟩
  rcases hc with rfl | rfl
  · rw [← sum, terms_sum, terms_sumNode]
  · rw [← product, terms_product, terms_productNode]

theorem alike_combine {c : Combinator} (hc : c = .sum ∨ c = .product) (hne : ts ≠ [])
    (h : List.Forall₂ Alike ts us) : Alike (combine c ts) (combine c us) := by
  obtain ⟨hts, hus⟩ := isValid_of_forall₂_alike h
  have hnode := alike_node hc hne h
  have hne' : us ≠ [] := (isValid_node_iff.1 hnode.right).2.1
  have hleft := combine_alike_node hc hne hts
  have hright := combine_alike_node hc hne' hus
  exact hleft.trans (hnode.trans hright.symm)

end

end KernelTree

end CovarianceSearch
