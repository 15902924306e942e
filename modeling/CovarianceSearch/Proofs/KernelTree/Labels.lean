import CovarianceSearch.Proofs.KernelTree.Expanded

namespace CovarianceSearch.KernelTree

variable {allowed : Set BaseKernel} {c : Combinator} {t : KernelTree} {ts : List KernelTree}

def UsesOnly (allowed : Set BaseKernel) (t : KernelTree) : Prop := ∀ k ∈ t.labels, k ∈ allowed

theorem usesOnly_leaf_iff {k : BaseKernel} : UsesOnly allowed (.leaf k) ↔ k ∈ allowed := by
  simp [UsesOnly]

theorem usesOnly_node_iff : UsesOnly allowed (.node c ts) ↔ ∀ t ∈ ts, t.UsesOnly allowed := by
  simp only [UsesOnly, labels_node, List.mem_flatMap]
  exact ⟨fun h t ht k hk ↦ h k ⟨t, ht, hk⟩, fun h k ⟨t, ht, hk⟩ ↦ h t ht k hk⟩

theorem usesOnly_operandsFor_iff :
    (∀ s ∈ operandsFor c t, s.UsesOnly allowed) ↔ t.UsesOnly allowed := by
  cases t with
  | leaf k => simp [operandsFor]
  | node c' ts =>
    by_cases hc : c' = c
    · simp only [operandsFor, if_pos hc, usesOnly_node_iff]
    · simp [operandsFor, hc]

theorem usesOnly_combine_iff : (combine c ts).UsesOnly allowed ↔ ∀ t ∈ ts, t.UsesOnly allowed := by
  simp only [combine, usesOnly_node_iff, List.forall_mem_flatMap]
  exact forall₂_congr fun t _ ↦ usesOnly_operandsFor_iff

theorem usesOnly_combine_pair_iff {u : KernelTree} :
    (combine c [t, u]).UsesOnly allowed ↔ t.UsesOnly allowed ∧ u.UsesOnly allowed := by
  simp [usesOnly_combine_iff]

theorem UsesOnly.of_mem_decompose {s : KernelTree} (h : t.UsesOnly allowed)
    (hs : s ∈ t.decompose) : s.UsesOnly allowed := by
  cases t with
  | leaf k => rwa [List.mem_singleton.1 hs]
  | node c ts =>
    cases c with
    | sum => exact usesOnly_node_iff.1 h s hs
    | product => exact usesOnly_node_iff.1 h s hs
    | changePoint => rwa [List.mem_singleton.1 hs]
    | changeWindow => rwa [List.mem_singleton.1 hs]

theorem usesOnly_productOrSingle (h : ∀ t ∈ ts, t.UsesOnly allowed) :
    (productOrSingle ts).UsesOnly allowed := by
  unfold productOrSingle
  split
  · next t => exact h t (by simp)
  · exact usesOnly_combine_iff.2 h

theorem usesOnly_of_mem_picks (h : ∀ t ∈ ts, t.UsesOnly allowed) {pick : List KernelTree}
    (hpick : pick ∈ picks ts) : ∀ s ∈ pick, s.UsesOnly allowed := by
  induction ts generalizing pick with
  | nil =>
    rw [picks, List.mem_singleton] at hpick
    simp [hpick]
  | cons t ts ih =>
    obtain ⟨s, hs, hpick⟩ := List.mem_flatMap.1 hpick
    obtain ⟨rest, hrest, rfl⟩ := List.mem_map.1 hpick
    obtain ⟨ht, hts⟩ := List.forall_mem_cons.1 h
    exact List.forall_mem_cons.2 ⟨usesOnly_operandsFor_iff.2 ht s hs, ih hts hrest⟩

theorem usesOnly_expandProduct (h : ∀ t ∈ ts, t.UsesOnly allowed) :
    (expandProduct ts).UsesOnly allowed := by
  unfold expandProduct
  split
  · refine usesOnly_combine_iff.2 (List.forall_mem_map.2 fun pick hpick ↦ ?_)
    exact usesOnly_productOrSingle (usesOnly_of_mem_picks h hpick)
  · exact usesOnly_combine_iff.2 h

theorem UsesOnly.distribute (h : t.UsesOnly allowed) : t.distribute.UsesOnly allowed := by
  induction t using OpTree.induction with
  | leaf k => exact h
  | node c ts ih =>
    have hts : ∀ t ∈ ts.map KernelTree.distribute, t.UsesOnly allowed :=
      List.forall_mem_map.2 fun t ht ↦ ih t ht (usesOnly_node_iff.1 h t ht)
    rw [KernelTree.distribute, OpTree.fold_node]
    cases c with
    | sum => exact usesOnly_combine_iff.2 hts
    | product => exact usesOnly_expandProduct hts
    | changePoint => exact usesOnly_node_iff.2 hts
    | changeWindow => exact usesOnly_node_iff.2 hts

theorem UsesOnly.changeFactors {change : List KernelTree → List KernelTree}
    (hchange : ∀ ts, change ts ⊆ ts) (h : t.UsesOnly allowed) :
    (t.changeFactors change).UsesOnly allowed := by
  induction t using OpTree.induction with
  | leaf k => exact h
  | node c ts ih =>
    have hts : ∀ t ∈ ts.map (KernelTree.changeFactors change), t.UsesOnly allowed :=
      List.forall_mem_map.2 fun t ht ↦ ih t ht (usesOnly_node_iff.1 h t ht)
    rw [KernelTree.changeFactors, OpTree.fold_node]
    cases c with
    | sum => exact usesOnly_combine_iff.2 hts
    | product => exact usesOnly_productOrSingle fun t ht ↦ hts t (hchange _ ht)
    | changePoint => exact usesOnly_node_iff.2 hts
    | changeWindow => exact usesOnly_node_iff.2 hts

theorem singleRbf_subset (factors : List KernelTree) : singleRbf factors ⊆ factors := by
  refine List.append_subset.2 ⟨List.filter_subset_self _, fun t ht ↦ ?_⟩
  exact List.mem_of_mem_filter (List.mem_of_mem_take ht)

theorem absorbIntoWhite_subset (factors : List KernelTree) : absorbIntoWhite factors ⊆ factors := by
  unfold absorbIntoWhite
  split
  · next hwhite => exact List.cons_subset.2 ⟨hwhite, List.filter_subset_self _⟩
  · exact List.Subset.refl _

theorem UsesOnly.simplify (h : t.UsesOnly allowed) : t.simplify.UsesOnly allowed :=
  (h.distribute.changeFactors singleRbf_subset).changeFactors absorbIntoWhite_subset

end CovarianceSearch.KernelTree
