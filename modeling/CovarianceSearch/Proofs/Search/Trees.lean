import CovarianceSearch.Proofs.Grammar.Rearrangement
import CovarianceSearch.Proofs.Search.Growth

namespace CovarianceSearch.Search

variable {M : Type} {search : Search M} {depth : Nat}

def isFull (search : Search M) (depth : Nat) : Bool :=
  depth = 0 && search.config.fullInitialExpansion

theorem candidates_eq_of_tree (hkind : search.grammar.kind = .tree) {frontier : List Entry}
    (h : ∀ e ∈ frontier, e.tree.IsValid) :
    search.candidates depth frontier =
      .ok ((search.grammar.palette.frontierSteps (search.isFull depth)
        (frontier.map (·.tree))).map (⟨·, none⟩)) := by
  have hexpand : ∀ {e : Entry}, e.tree.IsValid → search.grammar.expand e =
      .ok ((search.grammar.palette.treeSteps e.tree).map (⟨·, none⟩)) := by
    intro e he
    rw [Grammar.expand, hkind]
    exact Grammar.expandTree_eq he
  refine candidates_eq_ok_iff.2 ⟨_, _, List.forall₂_map_right_iff.2 (List.forall₂_same.2
    fun e he ↦ hexpand (h e he)), List.forall₂_map_right_iff.2 (List.forall₂_same.2
    fun k _ ↦ hexpand (KernelTree.isValid_leaf k)), ?_⟩
  rw [Palette.frontierSteps, List.map_append, List.flatMap_map, List.map_flatMap]
  congr 1
  by_cases hfull : depth = 0 ∧ search.config.fullInitialExpansion = true
  · have hfull' : search.isFull depth = true := by simpa [isFull] using hfull
    rw [if_pos hfull, if_pos hfull', List.map_flatMap]
    rfl
  · have hfull' : ¬ search.isFull depth = true := by simpa [isFull] using hfull
    rw [if_neg hfull, if_neg hfull']
    rfl

variable [Model M] {xs ys : List Float} {cancelled : Nat → Bool} {deviates : Nat → Deviates}
  {batches : List (List KernelTree)} {s : State}

theorem Reaches.isStored (hnamed : search.IsNamed) (hkind : search.grammar.kind = .tree)
    (h : search.Reaches xs ys cancelled deviates depth batches s) :
    ∀ e ∈ s.table.entries, e.tree.IsStored := by
  induction h with
  | initial h =>
    rw [initial_eq] at h
    cases h
    intro e he
    rw [List.mem_singleton.1 he]
    exact KernelTree.isStored_leaf search.start
  | @depth depth _ s s' pass hs _ _ hc ih =>
    have hsound := hs.isSound hnamed
    obtain ⟨new, hentries, hnew, -⟩ := hc.exists_new hsound.keys
    have hfrontier : ∀ e ∈ pass.frontier, e.tree.IsStored := by
      intro e he
      rw [hc.frontier] at he
      exact ih e (mem_frontier he)
    have hcandidates := hc.candidates
    rw [candidates_eq_of_tree hkind fun e he ↦ (hfrontier e he).valid] at hcandidates
    rw [hentries]
    refine List.forall_mem_append.2 ⟨ih, fun e he ↦ ?_⟩
    obtain ⟨c, hc, hce⟩ := exists_of_mem_forall₂ hnew he
    have hmem := mem_of_mem_firstOccurrences hc
    rw [← Except.ok.inj hcandidates] at hmem
    obtain ⟨t, ht, rfl⟩ := List.mem_map.1 hmem
    rw [hce.tree]
    refine Palette.isStored_simplify_of_mem_frontierSteps (fun u hu ↦ ?_) ht
    obtain ⟨e', he', rfl⟩ := List.mem_map.1 hu
    exact hfrontier e' he'

end CovarianceSearch.Search
