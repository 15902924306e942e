import CovarianceSearch.Proofs.Outcome
import CovarianceSearch.Proofs.Table
import CovarianceSearch.Search

namespace CovarianceSearch.Search

/-- What a depth that is completed works with: the entries that it expands, what they are expanded
to, the new entries among that and how these are scored. -/
structure Pass where
  frontier : List Entry
  candidates : List Candidate
  fresh : List Entry
  evaluations : List Evaluation

def Pass.batch (pass : Pass) : List KernelTree := pass.fresh.map (·.tree)

def completed (depth : Nat) (s : State) (fresh : List Entry) (evaluations : List Evaluation) :
    State :=
  let entered := { s with table := s.table.insertAll fresh }
  let scored := (fresh.zip evaluations).zipIdx.foldl (recordOne evaluations.length) entered
  { scored with
    events := scored.events ++ [.completed depth scored.table.bestScore scored.table.size] }

variable {M : Type} [Model M] (search : Search M)

def frontier (s : State) : List Entry := s.table.best search.config.kernelsPerDepth

def started (depth : Nat) (s : State) : State :=
  { s with
    progression := s.progression ++ [s.table.bestScore]
    events := s.events ++ [.started depth ((search.frontier s).map (·.key))] }

/-- A depth takes a search from `s` to `s'`. -/
structure Completes (xs ys : List Float) (deviates : Deviates) (depth : Nat) (s : State)
    (pass : Pass) (s' : State) : Prop where
  goesOn : search.stop? depth (search.started depth s).progression = none
  frontier : pass.frontier = search.frontier s
  candidates : search.candidates depth pass.frontier = .ok pass.candidates
  fresh : freshEntries depth s.table [] pass.candidates = .ok pass.fresh
  fresh_ne_nil : pass.fresh ≠ []
  evaluations : search.evaluator.evaluate xs ys pass.batch deviates = .ok pass.evaluations
  result : s' = completed depth (search.started depth s) pass.fresh pass.evaluations

variable {search} {xs ys : List Float} {deviates : Deviates} {depth : Nat} {s s' : State}

omit [Model M] in
theorem stop?_eq_some_iff {progression : List Float} {reason : Termination} :
    search.stop? depth progression = some reason ↔ 2 ≤ depth ∧ ∃ threshold improvement,
      search.config.stoppingThreshold = some threshold ∧
        Improvement.below? threshold progression = some improvement ∧
        reason = .earlyStopping depth improvement threshold := by
  refine Option.bind_eq_some_iff.trans ?_
  constructor
  · rintro ⟨threshold, hthreshold, h⟩
    split at h
    · cases h
    · next hdepth =>
      obtain ⟨improvement, himprovement, h⟩ := Option.bind_eq_some_iff.1 h
      cases h
      exact ⟨by omega, threshold, improvement, hthreshold, himprovement, rfl⟩
  · rintro ⟨hdepth, threshold, improvement, hthreshold, himprovement, rfl⟩
    refine ⟨threshold, hthreshold, ?_⟩
    rw [if_neg (by omega), himprovement]
    rfl

theorem foldl_recordOne_entries (total : Nat) {results : List (Entry × Evaluation)} {i : Nat}
    {before : List Entry} (htable : s.table.entries = before ++ results.map Prod.fst)
    (hkeys : s.table.keys.Nodup) (hunscored : ∀ r ∈ results, r.1.evaluated = false) :
    ((results.zipIdx i).foldl (recordOne total) s).table.entries =
      before ++ results.map fun r ↦ r.1.scored r.2.score r.2.params := by
  -- What stands in `before` has been scored already or is not scored at this depth.
  induction results generalizing s i before with
  | nil => simpa using htable
  | cons r results ih =>
    obtain ⟨e, v⟩ := r
    have hrecord : (s.table.record e.key v.score v.params).1 =
        ⟨before ++ e.scored v.score v.params :: results.map Prod.fst⟩ :=
      Table.record_eq hkeys htable (hunscored (e, v) (by simp))
    rw [List.zipIdx_cons, List.foldl_cons, List.map_cons]
    have hnext : (recordOne total s ((e, v), i)).table.entries =
        (before ++ [e.scored v.score v.params]) ++ results.map Prod.fst := by
      simp [recordOne, hrecord]
    rw [ih hnext]
    · simp
    · simpa [recordOne, hrecord, Table.keys, htable, Entry.scored] using hkeys
    · exact fun r hr ↦ hunscored r (by simp [hr])

theorem completed_entries {fresh : List Entry} {evaluations : List Evaluation}
    (hkeys : (s.table.keys ++ fresh.map (·.key)).Nodup)
    (hunscored : ∀ e ∈ fresh, e.evaluated = false) (hlength : fresh.length = evaluations.length) :
    (completed depth s fresh evaluations).table.entries = s.table.entries ++
      (fresh.zip evaluations).map fun r ↦ r.1.scored r.2.score r.2.params := by
  have hentered := Table.insertAll_eq hkeys
  have hfst : (fresh.zip evaluations).map Prod.fst = fresh :=
    List.map_fst_zip (Nat.le_of_eq hlength)
  refine foldl_recordOne_entries _ ?_ ?_ ?_
  · rw [hfst, hentered]
  · simpa [hentered, Table.keys] using hkeys
  · exact fun r hr ↦ hunscored r.1 (List.of_mem_zip hr).1

theorem foldl_recordOne_progression (total : Nat) (results : List ((Entry × Evaluation) × Nat))
    (s : State) : (results.foldl (recordOne total) s).progression = s.progression := by
  induction results generalizing s with
  | nil => rfl
  | cons result results ih => exact ih _

theorem foldl_recordOne_events (total : Nat) (results : List (Entry × Evaluation)) (i : Nat)
    (s : State) : ((results.zipIdx i).foldl (recordOne total) s).events = s.events ++
      (results.zipIdx i).map fun r ↦ .evaluated r.1.1.key r.1.2.score (r.2 + 1) total := by
  induction results generalizing i s with
  | nil => simp
  | cons r results ih =>
    rw [List.zipIdx_cons, List.foldl_cons, ih, List.map_cons]
    simp [recordOne]

theorem Completes.progression_eq {pass : Pass}
    (h : search.Completes xs ys deviates depth s pass s') :
    s'.progression = s.progression ++ [s.table.bestScore] := by
  rw [h.result, completed, foldl_recordOne_progression]
  rfl

theorem Completes.events_eq_append {pass : Pass}
    (h : search.Completes xs ys deviates depth s pass s') :
    s'.events = (search.started depth s).events ++
      (pass.fresh.zip pass.evaluations).zipIdx.map (fun r ↦
        .evaluated r.1.1.key r.1.2.score (r.2 + 1) pass.evaluations.length) ++
      [.completed depth s'.table.bestScore s'.table.size] := by
  rw [h.result, completed, foldl_recordOne_events]

theorem evaluateFresh_eq_ok_iff {fresh : List Entry} :
    search.evaluateFresh xs ys deviates depth s fresh = .ok s' ↔
      ∃ evaluations, search.evaluator.evaluate xs ys (fresh.map (·.tree)) deviates =
        .ok evaluations ∧ s' = completed depth s fresh evaluations := by
  rw [evaluateFresh, Outcome.bind_eq_ok_iff]
  refine exists_congr fun evaluations ↦ and_congr_right fun _ ↦ ?_
  exact ⟨fun h ↦ by cases h; rfl, fun h ↦ by rw [h]; rfl⟩

theorem step_eq (search : Search M) (xs ys : List Float) (deviates : Deviates) (depth : Nat)
    (s : State) : search.step xs ys deviates depth s =
      match search.stop? depth (search.started depth s).progression with
      | some reason => .ok (.done (search.started depth s) reason)
      | none =>
        (search.candidates depth (search.frontier s)).mapError .grammar >>= fun candidates ↦
          (freshEntries depth s.table [] candidates).mapError .node >>= fun fresh ↦
            match fresh with
            | [] => .ok (.done (search.started depth s) (.emptySearchSpace depth))
            | fresh => .next <$> search.evaluateFresh xs ys deviates depth
                (search.started depth s) fresh := by
  rfl

theorem step_eq_next_iff : search.step xs ys deviates depth s = .ok (.next s') ↔
    ∃ pass, search.Completes xs ys deviates depth s pass s' := by
  rw [step_eq]
  constructor
  · intro h
    split at h
    · cases h
    · next hstop =>
      obtain ⟨candidates, hcandidates, h⟩ := Outcome.bind_eq_ok_iff.1 h
      obtain ⟨fresh, hfresh, h⟩ := Outcome.bind_eq_ok_iff.1 h
      split at h
      · cases h
      · next hne =>
        rw [map_eq_pure_bind] at h
        obtain ⟨s'', hs'', h⟩ := Outcome.bind_eq_ok_iff.1 h
        cases h
        obtain ⟨evaluations, hevaluations, hresult⟩ := evaluateFresh_eq_ok_iff.1 hs''
        exact ⟨⟨_, candidates, fresh, evaluations⟩, hstop, rfl,
          Outcome.mapError_eq_ok_iff.1 hcandidates, Outcome.mapError_eq_ok_iff.1 hfresh, hne,
          hevaluations, hresult⟩
  · rintro ⟨⟨frontier, candidates, fresh, evaluations⟩, h⟩
    obtain rfl : frontier = _ := h.frontier
    have hcandidates := h.candidates
    have hfresh := h.fresh
    have hevaluate := evaluateFresh_eq_ok_iff.2 ⟨evaluations, h.evaluations, h.result⟩
    rw [h.goesOn]
    dsimp only at hcandidates hfresh ⊢
    rw [hcandidates]
    refine Outcome.bind_eq_ok_iff.2 ⟨candidates, rfl, ?_⟩
    rw [hfresh]
    refine Outcome.bind_eq_ok_iff.2 ⟨fresh, rfl, ?_⟩
    split
    · exact absurd rfl h.fresh_ne_nil
    · rw [hevaluate]
      rfl

/-- A step that ends a search leaves its depth as it was started. Either the improvement was too
small, or nothing new came up. -/
theorem step_eq_done_iff {reason : Termination} :
    search.step xs ys deviates depth s = .ok (.done s' reason) ↔
      s' = search.started depth s ∧
        (search.stop? depth (search.started depth s).progression = some reason ∨
          search.stop? depth (search.started depth s).progression = none ∧
            reason = .emptySearchSpace depth ∧
            ∃ candidates, search.candidates depth (search.frontier s) = .ok candidates ∧
              freshEntries depth s.table [] candidates = .ok []) := by
  rw [step_eq]
  constructor
  · intro h
    split at h
    · next hstop =>
      cases h
      exact ⟨rfl, .inl hstop⟩
    · next hstop =>
      obtain ⟨candidates, hcandidates, h⟩ := Outcome.bind_eq_ok_iff.1 h
      obtain ⟨fresh, hfresh, h⟩ := Outcome.bind_eq_ok_iff.1 h
      have hcandidates := Outcome.mapError_eq_ok_iff.1 hcandidates
      have hfresh := Outcome.mapError_eq_ok_iff.1 hfresh
      split at h
      · cases h
        exact ⟨rfl, .inr ⟨hstop, rfl, candidates, hcandidates, hfresh⟩⟩
      · rw [map_eq_pure_bind] at h
        obtain ⟨s'', -, h⟩ := Outcome.bind_eq_ok_iff.1 h
        cases h
  · rintro ⟨rfl, hstop | ⟨hstop, rfl, candidates, hcandidates, hfresh⟩⟩
    · rw [hstop]
    · rw [hstop]
      dsimp only
      rw [hcandidates]
      refine Outcome.bind_eq_ok_iff.2 ⟨candidates, rfl, ?_⟩
      rw [hfresh]
      rfl

end CovarianceSearch.Search
