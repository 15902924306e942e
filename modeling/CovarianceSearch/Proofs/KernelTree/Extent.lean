import CovarianceSearch.Proofs.KernelTree.Alike

namespace CovarianceSearch

namespace Terms

/-- Whether there are at most `n` monomials, none of them of more than `d` factors. -/
structure Fits (s : Terms) (n d : ℕ) : Prop where
  count : s.monomials.card ≤ n
  degree : ∀ m ∈ s.monomials, m.card ≤ d

variable {s t : Terms} {n n' d d' : ℕ}

theorem Fits.mono (h : s.Fits n d) (hn : n ≤ n') (hd : d ≤ d') : s.Fits n' d' :=
  ⟨h.count.trans hn, fun m hm ↦ (h.degree m hm).trans hd⟩

theorem fits_single (k : BaseKernel) : (single {k}).Fits 1 1 := by
  constructor <;> simp

theorem Fits.add (hs : s.Fits n d) (ht : t.Fits n' d) : (s + t).Fits (n + n') d := by
  constructor
  · rw [monomials_add, Multiset.card_add]
    exact Nat.add_le_add hs.count ht.count
  · intro m hm
    rw [monomials_add, Multiset.mem_add] at hm
    exact hm.elim (hs.degree m) (ht.degree m)

theorem card_monomials_mul (s t : Terms) :
    (s * t).monomials.card = s.monomials.card * t.monomials.card := by
  simp

theorem Fits.mul (hs : s.Fits n d) (ht : t.Fits n' d') : (s * t).Fits (n * n') (d + d') := by
  constructor
  · rw [card_monomials_mul]
    exact Nat.mul_le_mul hs.count ht.count
  · intro m hm
    rw [monomials_mul, Multiset.mem_bind] at hm
    obtain ⟨a, ha, hm⟩ := hm
    obtain ⟨b, hb, rfl⟩ := Multiset.mem_map.1 hm
    rw [Multiset.card_add]
    exact Nat.add_le_add (hs.degree a ha) (ht.degree b hb)

theorem Fits.of_add (h : (s + t).Fits n d) : s.Fits n d := by
  constructor
  · have hcount := h.count
    rw [monomials_add, Multiset.card_add] at hcount
    omega
  · intro m hm
    exact h.degree m (Multiset.mem_add.2 (.inl hm))

/-- A factor fits wherever the product does, unless there is nothing in the product. -/
theorem Fits.of_mul (h : (s * t).Fits n d) (hne : (s * t).monomials ≠ 0) : s.Fits n d := by
  obtain ⟨m, hm⟩ := Multiset.exists_mem_of_ne_zero hne
  obtain ⟨a, -, hm⟩ := Multiset.mem_bind.1 hm
  obtain ⟨b, hb, -⟩ := Multiset.mem_map.1 hm
  constructor
  · have hcount := h.count
    rw [card_monomials_mul] at hcount
    exact (Nat.le_mul_of_pos_right _ (Multiset.card_pos_iff_exists_mem.2 ⟨b, hb⟩)).trans hcount
  · intro a ha
    have hab : a + b ∈ (s * t).monomials :=
      Multiset.mem_bind.2 ⟨a, ha, Multiset.mem_map_of_mem _ hb⟩
    have hdegree := h.degree _ hab
    rw [Multiset.card_add] at hdegree
    omega

theorem reduceMonomial_le (m : Multiset BaseKernel) : reduceMonomial m ≤ m := by
  unfold reduceMonomial
  split
  · next hwhite =>
    obtain ⟨rest, rfl⟩ := Multiset.exists_cons_of_mem hwhite
    rw [Multiset.filter_cons_of_neg _ (by decide)]
    exact Multiset.cons_le_cons _ (Multiset.filter_le _ _)
  · have hrbfs : Multiset.replicate (min 1 (m.count .rbf)) .rbf ≤ m.filter (· = .rbf) := by
      rw [Multiset.filter_eq']
      exact Multiset.replicate_le_replicate _ |>.2 (Nat.min_le_right _ _)
    calc m.filter (· ≠ .rbf) + Multiset.replicate (min 1 (m.count .rbf)) .rbf
        ≤ m.filter (· ≠ .rbf) + m.filter (· = .rbf) := add_le_add_right hrbfs _
      _ = m := by rw [add_comm, Multiset.filter_add_not]

theorem Fits.reduce (h : s.Fits n d) : s.reduce.Fits n d := by
  constructor
  · rw [Terms.reduce, Multiset.card_map]
    exact h.count
  · intro m hm
    obtain ⟨a, ha, rfl⟩ := Multiset.mem_map.1 hm
    exact (Multiset.card_le_card (reduceMonomial_le a)).trans (h.degree a ha)

end Terms

namespace KernelTree

variable {s t : KernelTree} {ts : List KernelTree} {n d : ℕ}

theorem terms_sum_pair (t u : KernelTree) : terms (.sum [t, u]) = t.terms + u.terms := by
  rw [terms_sum, List.map_cons, List.map_singleton, List.sum_cons, List.sum_singleton]

theorem terms_product_pair (t u : KernelTree) : terms (.product [t, u]) = t.terms * u.terms := by
  rw [terms_product, List.map_cons, List.map_singleton, List.prod_cons, List.prod_singleton]

theorem exists_sum_eq_add (hs : s ∈ ts) : ∃ u, (ts.map terms).sum = s.terms + u := by
  obtain ⟨before, after, rfl⟩ := List.append_of_mem hs
  refine ⟨(before.map terms).sum + (after.map terms).sum, ?_⟩
  rw [List.map_append, List.sum_append, List.map_cons, List.sum_cons, add_left_comm]

theorem summand_or_factor_of_mem_decompose (hs : s ∈ t.decompose) :
    (∃ u, t.terms = s.terms + u) ∨ s.terms ∣ t.terms := by
  cases t with
  | leaf k => exact .inr (List.mem_singleton.1 hs ▸ dvd_refl _)
  | node c ts =>
    cases c with
    | sum =>
      rw [terms_sumNode]
      exact .inl (exists_sum_eq_add hs)
    | product =>
      rw [terms_productNode]
      exact .inr (List.dvd_prod (List.mem_map_of_mem hs))
    | changePoint => exact .inr (List.mem_singleton.1 hs ▸ dvd_refl _)
    | changeWindow => exact .inr (List.mem_singleton.1 hs ▸ dvd_refl _)

theorem IsValid.monomials_terms_ne_zero (h : t.IsValid) : t.terms.monomials ≠ 0 := by
  rw [← terms_distribute]
  exact h.isExpanded_distribute.monomials_terms_ne_zero

/-- Whether a tree is a sum of at most `n` terms, each of them a product of at most `d` base
kernels. -/
structure HasExtent (t : KernelTree) (n d : ℕ) : Prop where
  count : (operandsFor .sum t).length ≤ n
  isMonomial : ∀ s ∈ operandsFor .sum t, s.IsMonomial
  factors : ∀ s ∈ operandsFor .sum t, s.labels.length ≤ d

theorem IsExpanded.hasExtent (h : t.IsExpanded) (hfits : t.terms.Fits n d) : t.HasExtent n d := by
  have hterms := h.monomials_terms
  constructor
  case count =>
    have hcount := hfits.count
    rw [hterms, Multiset.coe_card, List.length_map] at hcount
    exact hcount
  case isMonomial => exact fun s hs ↦ h.isMonomial_of_mem hs
  case factors =>
    intro s hs
    have hmem : (s.labels : Multiset BaseKernel) ∈ t.terms.monomials := by
      rw [hterms]
      exact Multiset.mem_coe.2 (List.mem_map_of_mem hs)
    exact hfits.degree _ hmem

end KernelTree

end CovarianceSearch
