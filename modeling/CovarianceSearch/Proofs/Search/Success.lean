import CovarianceSearch.Proofs.Search.Run

namespace CovarianceSearch.Search

/-- The last of `n` depths can be counted unless `n` is the least number of a word with a sign. -/
theorem exists_lastDepth_iff (n : Nat) : (∃ i, lastDepth n = .ok i) ↔ n % 2 ^ 64 ≠ 2 ^ 63 := by
  have hdepth : (Int64.ofNat n).toInt = Int64.minValue.toInt ↔ n % 2 ^ 64 = 2 ^ 63 := by
    rw [Int64.toInt_ofNat', Int64.toInt_minValue, Int.bmod_def, Int64.size]
    split <;> omega
  rw [Ne, ← hdepth]
  unfold lastDepth
  by_cases h : (Int64.ofNat n).toInt = Int64.minValue.toInt
  · simp only [if_pos h]
    simpa using h
  · simp only [if_neg h]
    simpa using h

variable {M : Type} [Model M] {search : Search M} {xs ys : List Float} {depth : Nat}
  {batches : List (List KernelTree)} {s : State}

/-- Whether every fit on the data comes to an end, be it in failure. -/
def FitsReturn (search : Search M) (xs ys : List Float) : Prop :=
  ∀ k deviates, search.evaluator.fit xs ys k deviates ≠ .error .missingTarget

def SimplifiedFitsReturn (search : Search M) (xs ys : List Float) : Prop :=
  ∀ t : KernelTree, t.IsValid → ∀ k deviates, Kernel.ofTree t.simplify = .ok k →
    search.evaluator.fit xs ys k deviates ≠ .error .missingTarget

theorem FitsReturn.simplified (h : search.FitsReturn xs ys) :
    search.SimplifiedFitsReturn xs ys :=
  fun _ _ k deviates _ ↦ h k deviates

theorem IsSound.exists_evaluations_of_simplified (hnamed : search.IsNamed)
    (hs : search.IsSound depth batches s) (hfits : search.SimplifiedFitsReturn xs ys)
    (deviates : Deviates) :
    ∃ candidates fresh evaluations,
      search.candidates depth (search.frontier s) = .ok candidates ∧
        freshEntries depth s.table [] candidates = .ok fresh ∧
        search.evaluator.evaluate xs ys (fresh.map (·.tree)) deviates = .ok evaluations := by
  obtain ⟨candidates, hcandidates, hadmits⟩ := hs.exists_candidates hnamed
  obtain ⟨fresh, hfresh⟩ := exists_freshEntries depth s.table [] fun c hc ↦ (hadmits c hc).valid
  have htrees : ∀ t ∈ fresh.map (·.tree), ∃ c ∈ candidates, t = c.tree.simplify := by
    intro t ht
    obtain ⟨e, he, rfl⟩ := List.mem_map.1 ht
    obtain ⟨c, hc, hnew⟩ := exists_of_mem_forall₂ (forall₂_of_freshEntries hfresh) he
    exact ⟨c, mem_of_mem_firstOccurrences hc, hnew.tree⟩
  have hvalid : ∀ t ∈ fresh.map (·.tree), t.IsValid := by
    intro t ht
    obtain ⟨c, hc, rfl⟩ := htrees t ht
    exact (hadmits c hc).valid.isValid_simplify
  have hreturn : ∀ t ∈ fresh.map (·.tree), ∀ k deviates, Kernel.ofTree t = .ok k →
      search.evaluator.fit xs ys k deviates ≠ .error .missingTarget := by
    intro t ht k deviates hk
    obtain ⟨c, hc, rfl⟩ := htrees t ht
    exact hfits c.tree (hadmits c hc).valid k deviates hk
  obtain ⟨evaluations, hevaluations⟩ := Evaluator.exists_evaluate_of_fits hvalid hreturn
  exact ⟨candidates, fresh, evaluations, hcandidates, hfresh, hevaluations⟩

theorem IsSound.exists_evaluations (hnamed : search.IsNamed)
    (hs : search.IsSound depth batches s) (hfits : search.FitsReturn xs ys) (deviates : Deviates) :
    ∃ candidates fresh evaluations,
      search.candidates depth (search.frontier s) = .ok candidates ∧
        freshEntries depth s.table [] candidates = .ok fresh ∧
        search.evaluator.evaluate xs ys (fresh.map (·.tree)) deviates = .ok evaluations :=
  hs.exists_evaluations_of_simplified hnamed hfits.simplified deviates

theorem IsSound.exists_step (hnamed : search.IsNamed) (hs : search.IsSound depth batches s)
    (hfits : search.SimplifiedFitsReturn xs ys) (deviates : Deviates) :
    ∃ out, search.step xs ys deviates depth s = .ok out := by
  obtain ⟨candidates, fresh, evaluations, hcandidates, hfresh, hevaluations⟩ :=
    hs.exists_evaluations_of_simplified hnamed hfits deviates
  rw [step_eq]
  split
  · exact ⟨_, rfl⟩
  · rw [hcandidates]
    dsimp only [Except.mapError, bind, Except.bind]
    rw [hfresh]
    dsimp only
    split
    · exact ⟨_, rfl⟩
    · rw [evaluateFresh_eq_ok_iff.2 ⟨evaluations, hevaluations, rfl⟩]
      exact ⟨_, rfl⟩

theorem exists_run_iff_of_simplified (hnamed : search.IsNamed)
    (hfits : search.SimplifiedFitsReturn xs ys) (cancelled : Nat → Bool)
    (deviates : Nat → Deviates) :
    (∃ r, search.run xs ys cancelled deviates = .ok r) ↔
      ∃ i, lastDepth search.config.searchDepth = .ok i := by
  obtain ⟨r, hr⟩ : ∃ r, search.runFrom xs ys cancelled deviates search.config.searchDepth 0 _ =
      .ok r :=
    exists_runFrom _ (fun h ↦ (h.isSound hnamed).exists_step hnamed hfits _)
      (.initial (initial_eq search)) (Nat.zero_add _)
  have hrun : search.run xs ys cancelled deviates =
      lastDepth search.config.searchDepth >>= fun _ ↦ .ok r := by
    rw [run, initial_eq]
    change search.runFrom xs ys cancelled deviates search.config.searchDepth 0 _ >>= _ = _
    rw [hr]
    rfl
  rw [hrun]
  constructor
  · rintro ⟨r', h⟩
    obtain ⟨i, hi, -⟩ := Outcome.bind_eq_ok_iff.1 h
    exact ⟨i, hi⟩
  · rintro ⟨i, hi⟩
    exact ⟨r, Outcome.bind_eq_ok_iff.2 ⟨i, hi, rfl⟩⟩

theorem exists_run_iff (hnamed : search.IsNamed) (hfits : search.FitsReturn xs ys)
    (cancelled : Nat → Bool) (deviates : Nat → Deviates) :
    (∃ r, search.run xs ys cancelled deviates = .ok r) ↔
      ∃ i, lastDepth search.config.searchDepth = .ok i :=
  exists_run_iff_of_simplified hnamed hfits.simplified cancelled deviates

/-- A search that could be created expands, enters and scores without fail in every state that it
reaches, and it ends with a result unless the last of its depths cannot be counted. -/
theorem expands_and_run_succeeds_iff {config : Config} {backend : Backend M} {metric : Metric M}
    (hcreate : create config backend metric = .ok search) (hfits : search.FitsReturn xs ys)
    (cancelled : Nat → Bool) (deviates : Nat → Deviates) :
    (∀ depth batches s, search.Reaches xs ys cancelled deviates depth batches s →
      (∀ e ∈ search.frontier s, ∃ cs, search.grammar.expand e = .ok cs) ∧
        ∃ candidates fresh evaluations,
          search.candidates depth (search.frontier s) = .ok candidates ∧
            freshEntries depth s.table [] candidates = .ok fresh ∧
            search.evaluator.evaluate xs ys (fresh.map (·.tree)) (deviates depth) =
              .ok evaluations) ∧
      ((∃ r, search.run xs ys cancelled deviates = .ok r) ↔
        config.search.searchDepth % 2 ^ 64 ≠ 2 ^ 63) := by
  obtain ⟨hnamed, hconfig⟩ := create_eq_ok hcreate
  refine ⟨fun depth batches s hs ↦ ?_, ?_⟩
  · have hsound := hs.isSound hnamed
    refine ⟨fun e he ↦ ?_, hsound.exists_evaluations hnamed hfits _⟩
    obtain ⟨cs, hcs, -⟩ := hsound.exists_expand hnamed (mem_frontier he)
    exact ⟨cs, hcs⟩
  · rw [exists_run_iff hnamed hfits, exists_lastDepth_iff, hconfig]

theorem fitsReturn_smallSearch (kind : GrammarKind) (depths : Nat) (xs ys : List Float) :
    (smallSearch kind depths).FitsReturn xs ys := by
  intro k deviates h
  have hbuild : GaussianProcess.build xs ys k ≠ .error .missingTarget := by
    unfold GaussianProcess.build
    split <;> simp
  rw [Evaluator.fit] at h
  change GaussianProcess.build xs ys k >>= _ = _ at h
  cases hm : GaussianProcess.build xs ys k with
  | error e =>
    rw [hm] at h
    cases h
    exact hbuild hm
  | ok m =>
    rw [hm] at h
    have hscore : (if (5.0 : Float).isFinite then .ok (5.0, Model.parameters m)
        else .error (.fit .nonFinite) : Except Fault (Float × Assignment)) =
          .error .missingTarget := h
    rw [if_pos (by decide)] at hscore
    cases hscore

theorem exists_run_smallSearch (kind : GrammarKind) (depths : Nat)
    (hdepths : depths % 2 ^ 64 ≠ 2 ^ 63) (cancelled : Nat → Bool) (deviates : Nat → Deviates) :
    ∃ r, (smallSearch kind depths).run [0.0, 1.0] [0.0, 1.0] cancelled deviates = .ok r := by
  have hnamed := (create_eq_ok (create_smallConfig kind depths)).1
  refine (exists_run_iff hnamed (fitsReturn_smallSearch kind depths _ _) _ _).2 ?_
  exact (exists_lastDepth_iff depths).2 hdepths

theorem smallSearch_succeeds_and_overflows :
    create (smallConfig .text 3) smallBackend smallMetric = .ok (smallSearch .text 3) ∧
      (smallSearch .text 3).FitsReturn [0.0, 1.0] [0.0, 1.0] ∧
      (∃ r, (smallSearch .text 3).run [0.0, 1.0] [0.0, 1.0] (fun _ ↦ false) (fun _ _ _ ↦ 0.0) =
        .ok r) ∧
      create (smallConfig .tree (2 ^ 63)) smallBackend smallMetric =
        .ok (smallSearch .tree (2 ^ 63)) ∧
      (smallSearch .tree (2 ^ 63)).FitsReturn [0.0, 1.0] [0.0, 1.0] ∧
      ¬ ∃ r, (smallSearch .tree (2 ^ 63)).run [0.0, 1.0] [0.0, 1.0] (fun _ ↦ true)
        (fun _ _ _ ↦ 0.0) = .ok r := by
  have hcreate := create_smallConfig .text 3
  have hfits := fitsReturn_smallSearch .text 3 [0.0, 1.0] [0.0, 1.0]
  have hcreate' := create_smallConfig .tree (2 ^ 63)
  have hfits' := fitsReturn_smallSearch .tree (2 ^ 63) [0.0, 1.0] [0.0, 1.0]
  refine ⟨hcreate, hfits, ?_, hcreate', hfits', ?_⟩
  · exact (expands_and_run_succeeds_iff hcreate hfits _ _).2.2 (by decide)
  · intro h
    exact (expands_and_run_succeeds_iff hcreate' hfits' _ _).2.1 h (by decide)

end CovarianceSearch.Search
