import CovarianceSearch.Proofs.Ranked
import CovarianceSearch.Proofs.Search.Run

namespace CovarianceSearch

namespace Search

variable {M : Type} {search : Search M} {depth : Nat}

theorem candidates_eq_ok_iff {frontier : List Entry} {cs : List Candidate} :
    search.candidates depth frontier = .ok cs ↔ ∃ steps bases,
      List.Forall₂ (fun e step ↦ search.grammar.expand e = .ok step) frontier steps ∧
        List.Forall₂ (fun k step ↦ search.grammar.expand (search.grammar.seedEntry k) = .ok step)
          (if depth = 0 ∧ search.config.fullInitialExpansion = true
            then search.grammar.palette.active else []) bases ∧
        cs = steps.flatten ++ bases.flatten := by
  rw [candidates, Outcome.bind_eq_ok_iff]
  refine exists_congr fun steps ↦ ?_
  rw [Outcome.mapM_eq_ok_iff, exists_and_left]
  refine and_congr_right fun _ ↦ ?_
  by_cases hfirst : depth = 0 ∧ search.config.fullInitialExpansion = true
  · rw [if_pos (by simpa using hfirst), if_pos hfirst, Outcome.bind_eq_ok_iff]
    constructor
    · rintro ⟨extra, hextra, h⟩
      cases h
      obtain ⟨bases, rfl, hbases⟩ := Grammar.expandBaseKernels_eq_ok_iff.1 hextra
      exact ⟨bases, hbases, rfl⟩
    · rintro ⟨bases, hbases, rfl⟩
      exact ⟨_, Grammar.expandBaseKernels_eq_ok_iff.2 ⟨bases, rfl, hbases⟩, rfl⟩
  · rw [if_neg (by simpa using hfirst), if_neg hfirst]
    constructor
    · intro h
      cases h
      exact ⟨[], .nil, by simp⟩
    · rintro ⟨bases, hbases, rfl⟩
      rw [List.forall₂_nil_left_iff.1 hbases]
      rfl

/-- A table grows at a depth. The frontier are its best entries, equal scores counting by position.
They are expanded in order, and behind them the base kernels if a full expansion comes first. The
first occurrences among all this of the keys that are not in the table are appended in order. -/
def Grows (search : Search M) (depth : Nat) (t t' : Table) : Prop :=
  ∃ (order : List (Entry × ℕ)) (frontier : List Entry) (steps bases : List (List Candidate))
    (candidates : List Candidate) (new : List Entry),
    order.Perm t.entries.zipIdx ∧
      (order.Pairwise fun p q ↦
        p.1.score < q.1.score ∨ ¬ q.1.score < p.1.score ∧ p.2 < q.2) ∧
      frontier = (order.take search.config.kernelsPerDepth).map Prod.fst ∧
      List.Forall₂ (fun e step ↦ search.grammar.expand e = .ok step) frontier steps ∧
      List.Forall₂ (fun k step ↦ search.grammar.expand (search.grammar.seedEntry k) = .ok step)
        (if depth = 0 ∧ search.config.fullInitialExpansion = true
          then search.grammar.palette.active else []) bases ∧
      candidates = steps.flatten ++ bases.flatten ∧
      t'.entries = t.entries ++ new ∧
      List.Forall₂ (fun c e ↦ c.tree.simplify.text = .ok e.key ∧ e.tree = c.tree.simplify ∧
        e.expression = c.expression ∧ e.depth = depth)
        (firstOccurrences (fun c ↦ c.tree.simplify.text) (t.keys.map .ok) candidates) new ∧
      ∀ c ∈ candidates, ∃ e ∈ t'.entries, c.tree.simplify.text = .ok e.key

theorem IsSound.isNaN {batches : List (List KernelTree)} {s : State}
    (h : search.IsSound depth batches s) : ∀ e ∈ s.table.entries, e.score.isNaN = false :=
  fun e he ↦ (h.settled e he).isNaN

theorem IsSound.grows [Model M] {xs ys : List Float} {deviates : Deviates}
    {batches : List (List KernelTree)} {s s' : State} (hs : search.IsSound depth batches s)
    (hstep : search.step xs ys deviates depth s = .ok (.next s')) :
    search.Grows depth s.table s'.table := by
  obtain ⟨pass, hpass⟩ := step_eq_next_iff.1 hstep
  obtain ⟨order, hperm, hranked, hpairwise⟩ := Table.exists_order_ranked hs.isNaN
  obtain ⟨steps, bases, hsteps, hbases, hcandidates⟩ := candidates_eq_ok_iff.1 hpass.candidates
  obtain ⟨new, hentries, hnew, -, hkeys⟩ := hpass.exists_new hs.keys
  have hknown : knownKeys s.table [] = s.table.keys.map .ok := by simp [knownKeys]
  refine ⟨order, pass.frontier, steps, bases, pass.candidates, new, hperm, hpairwise, ?_, hsteps,
    hbases, hcandidates, hentries, ?_, fun c hc ↦ ?_⟩
  · rw [hpass.frontier, frontier, Table.best, hranked, List.map_take]
  · rw [← hknown]
    exact hnew.imp fun c e h ↦ ⟨h.key, h.tree, h.expression, h.depth_eq⟩
  · obtain ⟨key, hkey, hmem⟩ := mem_keys_of_freshEntries hpass.fresh hc
    rw [← hkeys] at hmem
    obtain ⟨e, he, rfl⟩ := List.mem_map.1 hmem
    exact ⟨e, he, hkey⟩

/-- Every depth that a search completes appends exactly the unseen expansions of its frontier. -/
theorem reaches_grows [Model M] {config : Config} {backend : Backend M} {metric : Metric M}
    (hcreate : create config backend metric = .ok search)
    {xs ys : List Float} {cancelled : Nat → Bool} {deviates : Nat → Deviates}
    {batches : List (List KernelTree)} {s s' : State}
    (hs : search.Reaches xs ys cancelled deviates depth batches s)
    (hstep : search.step xs ys (deviates depth) depth s = .ok (.next s')) :
    search.Grows depth s.table s'.table :=
  (hs.isSound (create_eq_ok hcreate).1).grows hstep

theorem smallSearch_grows :
    create (smallConfig .tree 2) smallBackend smallMetric = .ok (smallSearch .tree 2) ∧
      ∃ s s', (smallSearch .tree 2).Reaches [0.0, 1.0] [0.0, 1.0] (fun _ ↦ false)
        (fun _ _ _ ↦ 0.0) 0 [] s ∧
        (smallSearch .tree 2).step [0.0, 1.0] [0.0, 1.0] (fun _ _ ↦ 0.0) 0 s = .ok (.next s') ∧
        (smallSearch .tree 2).Grows 0 s.table s'.table := by
  have hcreate := create_smallConfig .tree 2
  obtain ⟨s', hs'⟩ := exists_step_smallSearch
  have hreaches : (smallSearch .tree 2).Reaches [0.0, 1.0] [0.0, 1.0] (fun _ ↦ false)
      (fun _ _ _ ↦ 0.0) 0 [] _ := .initial (initial_eq _)
  exact ⟨hcreate, _, s', hreaches, hs', reaches_grows hcreate hreaches hs'⟩

end Search

end CovarianceSearch
