import CovarianceSearch.Proofs.Improvement
import CovarianceSearch.Proofs.Search.Exhaustion

namespace CovarianceSearch

def Event.startedDepth? : Event → Option ℕ
  | .started depth _ => some depth
  | .evaluated .. | .completed .. => none

namespace Search

def State.startedDepths (s : State) : List ℕ := s.events.filterMap Event.startedDepth?

variable {M : Type} (search : Search M)

/-- The gain of the best score at a depth over the one before is below the threshold. -/
structure StopsEarly (progression : List Float) (depth : ℕ) (improvement threshold : Float) :
    Prop where
  threshold_eq : search.config.stoppingThreshold = some threshold
  two_le : 2 ≤ depth
  isAt : Improvement.IsAt progression depth improvement
  lt : improvement < threshold

def startedCount : Termination → ℕ
  | .maxDepthReached _ => search.config.searchDepth
  | .emptySearchSpace depth | .earlyStopping depth _ _ => depth + 1
  | .cancelled depth => depth

def completedCount : Termination → ℕ
  | .maxDepthReached _ => search.config.searchDepth
  | .emptySearchSpace depth | .earlyStopping depth _ _ | .cancelled depth => depth

variable {search} {depth depth' : ℕ} {s s' : State} {progression progression' : List Float}
  {improvement threshold : Float} {batches batches' : List (List KernelTree)}

theorem StopsEarly.of_prefix (h : search.StopsEarly progression' depth improvement threshold)
    (hgrown : progression <+: progression') (hdepth : depth < progression.length) :
    search.StopsEarly progression depth improvement threshold :=
  ⟨h.threshold_eq, h.two_le, h.isAt.of_prefix hgrown hdepth, h.lt⟩

theorem StopsEarly.lt_length (h : search.StopsEarly progression depth improvement threshold) :
    depth < progression.length := by
  obtain ⟨x, y, -, hy, -⟩ := h.isAt
  exact (List.getElem?_eq_some_iff.1 hy).1

theorem stop?_eq_some_iff_stopsEarly (hfalling : Improvement.IsFalling progression)
    (hlength : progression.length = depth + 1) {reason : Termination} :
    search.stop? depth progression = some reason ↔
      ∃ improvement threshold, search.StopsEarly progression depth improvement threshold ∧
        reason = .earlyStopping depth improvement threshold := by
  rw [stop?_eq_some_iff]
  constructor
  · rintro ⟨htwo, threshold, improvement, hthreshold, hbelow, rfl⟩
    obtain ⟨hat, hlt⟩ := (hfalling.below?_eq_some_iff (by omega) hlength).1 hbelow
    exact ⟨improvement, threshold, ⟨hthreshold, htwo, hat, hlt⟩, rfl⟩
  · rintro ⟨improvement, threshold, h, rfl⟩
    have htwo := h.two_le
    have hbelow := (hfalling.below?_eq_some_iff (by omega) hlength).2 ⟨h.isAt, h.lt⟩
    exact ⟨htwo, threshold, improvement, h.threshold_eq, hbelow, rfl⟩

theorem stop?_eq_none_iff (hfalling : Improvement.IsFalling progression)
    (hlength : progression.length = depth + 1) : search.stop? depth progression = none ↔
      ∀ improvement threshold, ¬ search.StopsEarly progression depth improvement threshold := by
  constructor
  · intro hstop improvement threshold h
    rw [(stop?_eq_some_iff_stopsEarly hfalling hlength).2 ⟨improvement, threshold, h, rfl⟩] at hstop
    cases hstop
  · intro h
    by_contra hstop
    obtain ⟨reason, hreason⟩ := Option.ne_none_iff_exists'.1 hstop
    obtain ⟨improvement, threshold, hstops, -⟩ :=
      (stop?_eq_some_iff_stopsEarly hfalling hlength).1 hreason
    exact h improvement threshold hstops

theorem IsSound.isLeastScore (h : search.IsSound depth batches s) :
    s.table.IsLeastScore s.table.bestScore := by
  obtain ⟨rest, hrest, -⟩ := h.seed
  apply Table.isLeastScore_bestScore h.isNaN
  exact ⟨_, hrest ▸ List.mem_cons_self, rfl⟩

theorem IsSound.isScore (h : search.IsSound depth batches s) : IsScore s.table.bestScore := by
  obtain ⟨e, he, heq⟩ := h.isLeastScore.attained
  exact heq ▸ (h.settled e he).imp And.left And.left

theorem startedDepths_started (search : Search M) (depth : ℕ) (s : State) :
    (search.started depth s).startedDepths = s.startedDepths ++ [depth] := by
  rw [State.startedDepths, started, List.filterMap_append]
  rfl

variable [Model M] {xs ys : List Float} {cancelled : ℕ → Bool} {deviates : ℕ → Deviates}
  {pass : Pass} {r : Run}

/-- A depth starts: it is reached while there are depths left and the search is not cancelled. -/
structure Starts (search : Search M) (xs ys : List Float) (cancelled : ℕ → Bool)
    (deviates : ℕ → Deviates) (depth : ℕ) (s : State) : Prop where
  reaches : ∃ batches, search.Reaches xs ys cancelled deviates depth batches s
  lt_searchDepth : depth < search.config.searchDepth
  goesOn : cancelled depth = false

theorem Starts.state_eq (h : search.Starts xs ys cancelled deviates depth s)
    (h' : search.Starts xs ys cancelled deviates depth s') : s = s' := by
  obtain ⟨batches, hs⟩ := h.reaches
  obtain ⟨batches', hs'⟩ := h'.reaches
  exact hs.state_eq hs'

theorem Completes.startedDepths_eq {deviates : Deviates}
    (h : search.Completes xs ys deviates depth s pass s') :
    s'.startedDepths = (search.started depth s).startedDepths := by
  have hevaluated (results : List ((Entry × Evaluation) × ℕ)) (total : ℕ) :
      (results.map fun r ↦ Event.evaluated r.1.1.key r.1.2.score (r.2 + 1) total).filterMap
        Event.startedDepth? = [] := by
    apply List.filterMap_eq_nil_iff.2
    intro event hevent
    obtain ⟨r, -, rfl⟩ := List.mem_map.1 hevent
    rfl
  rw [State.startedDepths, h.events_eq_append, List.filterMap_append, List.filterMap_append,
    hevaluated, List.append_nil]
  exact List.append_nil _

theorem Reaches.length_progression
    (h : search.Reaches xs ys cancelled deviates depth batches s) :
    s.progression.length = depth := by
  induction h with
  | initial h =>
    rw [initial_eq] at h
    cases h
    rfl
  | depth _ _ _ hc ih => rw [hc.progression_eq, List.length_append, ih, List.length_singleton]

theorem Reaches.startedDepths_eq
    (h : search.Reaches xs ys cancelled deviates depth batches s) :
    s.startedDepths = List.range depth := by
  induction h with
  | initial h =>
    rw [initial_eq] at h
    cases h
    rfl
  | depth _ _ _ hc ih => rw [hc.startedDepths_eq, startedDepths_started, ih, List.range_succ]

theorem Reaches.length_started (h : search.Reaches xs ys cancelled deviates depth batches s) :
    (search.started depth s).progression.length = depth + 1 := by
  rw [started, List.length_append, h.length_progression, List.length_singleton]

theorem Reaches.bestScore_le (hnamed : search.IsNamed)
    (h : search.Reaches xs ys cancelled deviates depth batches s) :
    ∀ x ∈ s.progression, s.table.bestScore ≤ x := by
  intro x hx
  obtain ⟨_, -, _, s₀, -, hgrown, rfl⟩ := h.exists_of_mem_progression hnamed hx
  exact Table.bestScore_le_of_prefix hgrown

theorem Reaches.isFalling_started (hnamed : search.IsNamed)
    (h : search.Reaches xs ys cancelled deviates depth batches s) :
    Improvement.IsFalling (search.started depth s).progression := by
  constructor
  case isScore =>
    refine List.forall_mem_append.2 ⟨fun x hx ↦ ?_, ?_⟩
    · obtain ⟨_, -, _, s₀, h₀, -, rfl⟩ := h.exists_of_mem_progression hnamed hx
      exact (h₀.isSound hnamed).isScore
    · exact List.forall_mem_singleton.2 (h.isSound hnamed).isScore
  case falls =>
    have hbest {s : State} {depth : ℕ} {batches : List (List KernelTree)}
        (h : search.Reaches xs ys cancelled deviates depth batches s)
        (hfalls : s.progression.Pairwise fun x y ↦ y ≤ x) :
        (s.progression ++ [s.table.bestScore]).Pairwise fun x y ↦ y ≤ x := by
      apply List.pairwise_append.2 ⟨hfalls, List.pairwise_singleton _ _, ?_⟩
      intro x hx y hy
      rw [List.mem_singleton.1 hy]
      exact h.bestScore_le hnamed x hx
    refine hbest h ?_
    induction h with
    | initial h =>
      rw [initial_eq] at h
      cases h
      exact .nil
    | depth h _ _ hc ih =>
      rw [hc.progression_eq]
      exact hbest h ih

theorem Reaches.exists_completes_of_lt (hnamed : search.IsNamed)
    (h : search.Reaches xs ys cancelled deviates depth batches s)
    (h' : search.Reaches xs ys cancelled deviates depth' batches' s') (hlt : depth < depth') :
    cancelled depth = false ∧
      ∃ pass s₁, search.Completes xs ys (deviates depth) depth s pass s₁ := by
  obtain ⟨_, s₀, pass, s₁, hs₀, -, hgoes, hc, -⟩ := h'.exists_completes hnamed hlt
  obtain rfl := h.state_eq hs₀
  exact ⟨hgoes, pass, s₁, hc⟩

/-- Where a search goes on, it has not been given a reason to stop early. -/
theorem Reaches.not_stopsEarly (hnamed : search.IsNamed)
    (h : search.Reaches xs ys cancelled deviates depth batches s) :
    ¬ search.StopsEarly s.progression depth' improvement threshold := by
  intro hstops
  have hlt := h.length_progression ▸ hstops.lt_length
  obtain ⟨_, s₀, pass, s₁, hs₀, -, -, hc, hprecedes⟩ := h.exists_completes hnamed hlt
  have hlength := hs₀.length_started
  apply (stop?_eq_none_iff (hs₀.isFalling_started hnamed) hlength).1 hc.goesOn improvement threshold
  exact hstops.of_prefix hprecedes.progression (by omega)

theorem freshEntries_eq_nil_iff {table : Table} {cs : List Candidate} :
    freshEntries depth table [] cs = .ok [] ↔
      ∀ c ∈ cs, ∃ key ∈ table.keys, c.key = .ok key := by
  constructor
  · intro h c hc
    obtain ⟨key, hkey, hmem⟩ := mem_keys_of_freshEntries h hc
    exact ⟨key, by simpa using hmem, hkey⟩
  · exact freshEntries_eq_nil []

/-- The ways for a run to end, with the reason that is recorded for each of them. -/
inductive Exits (search : Search M) (xs ys : List Float) (cancelled : ℕ → Bool)
    (deviates : ℕ → Deviates) : Run → Prop
  | maxDepthReached {batches : List (List KernelTree)} {s : State} :
      search.Reaches xs ys cancelled deviates search.config.searchDepth batches s →
      Exits search xs ys cancelled deviates
        ⟨s, .maxDepthReached ((search.config.searchDepth : ℤ) - 1)⟩
  | cancelled {depth : ℕ} {batches : List (List KernelTree)} {s : State} :
      search.Reaches xs ys cancelled deviates depth batches s →
      depth < search.config.searchDepth → cancelled depth = true →
      Exits search xs ys cancelled deviates ⟨s, .cancelled depth⟩
  | earlyStopping {depth : ℕ} {s : State} {improvement threshold : Float} :
      search.Starts xs ys cancelled deviates depth s →
      search.StopsEarly (search.started depth s).progression depth improvement threshold →
      Exits search xs ys cancelled deviates
        ⟨search.started depth s, .earlyStopping depth improvement threshold⟩
  | emptySearchSpace {depth : ℕ} {s : State} {candidates : List Candidate} :
      search.Starts xs ys cancelled deviates depth s →
      (∀ improvement threshold, ¬ search.StopsEarly (search.started depth s).progression depth
        improvement threshold) →
      search.candidates depth (search.frontier s) = .ok candidates →
      (∀ c ∈ candidates, ∃ key ∈ s.table.keys, c.key = .ok key) →
      Exits search xs ys cancelled deviates ⟨search.started depth s, .emptySearchSpace depth⟩

theorem exits_of_run (hnamed : search.IsNamed)
    (hr : search.run xs ys cancelled deviates = .ok r) :
    search.Exits xs ys cancelled deviates r := by
  obtain ⟨depth, batches, s, hs, hends⟩ := exists_ends_of_run hr
  cases hends with
  | budget hdone =>
    subst hdone
    exact .maxDepthReached hs
  | cancelled hbudget hcancelled => exact .cancelled hs hbudget hcancelled
  | done hbudget hgoes hstep =>
    have hstarts : search.Starts xs ys cancelled deviates depth s := ⟨⟨_, hs⟩, hbudget, hgoes⟩
    obtain ⟨rfl, hstop | ⟨hstop, rfl, candidates, hcandidates, hfresh⟩⟩ := step_eq_done_iff.1 hstep
    · obtain ⟨improvement, threshold, hstops, rfl⟩ :=
        (stop?_eq_some_iff_stopsEarly (hs.isFalling_started hnamed) hs.length_started).1 hstop
      exact .earlyStopping hstarts hstops
    · have hgoesOn := (stop?_eq_none_iff (hs.isFalling_started hnamed) hs.length_started).1 hstop
      exact .emptySearchSpace hstarts hgoesOn hcandidates (freshEntries_eq_nil_iff.1 hfresh)

theorem Exits.run_eq (h : search.Exits xs ys cancelled deviates r) (hnamed : search.IsNamed)
    (hlast : ∃ i, lastDepth search.config.searchDepth = .ok i) :
    search.run xs ys cancelled deviates = .ok r := by
  cases h with
  | maxDepthReached hs => exact (Ends.budget rfl).run_eq hs hlast
  | cancelled hs hbudget hcancelled => exact (Ends.cancelled hbudget hcancelled).run_eq hs hlast
  | earlyStopping hstarts hstops =>
    obtain ⟨⟨batches, hs⟩, hbudget, hgoes⟩ := hstarts
    have hstop := (stop?_eq_some_iff_stopsEarly (hs.isFalling_started hnamed)
      hs.length_started).2 ⟨_, _, hstops, rfl⟩
    apply Ends.run_eq (.done hbudget hgoes _) hs hlast
    exact step_eq_done_iff.2 ⟨rfl, .inl hstop⟩
  | emptySearchSpace hstarts hgoesOn hcandidates hknown =>
    obtain ⟨⟨batches, hs⟩, hbudget, hgoes⟩ := hstarts
    have hstop :=
      (stop?_eq_none_iff (hs.isFalling_started hnamed) hs.length_started).2 hgoesOn
    apply Ends.run_eq (.done hbudget hgoes _) hs hlast
    apply step_eq_done_iff.2 ⟨rfl, .inr ⟨hstop, rfl, _, hcandidates, _⟩⟩
    exact freshEntries_eq_nil_iff.2 hknown

theorem Reaches.exists_starts (hnamed : search.IsNamed)
    (h : search.Reaches xs ys cancelled deviates depth batches s) (hlt : depth' < depth) :
    ∃ s', search.Starts xs ys cancelled deviates depth' s' := by
  obtain ⟨batches', s', _, _, hs', hbudget, hgoes, -⟩ := h.exists_completes hnamed hlt
  exact ⟨s', ⟨batches', hs'⟩, hbudget, hgoes⟩

theorem Reaches.starts_iff (hnamed : search.IsNamed)
    (h : search.Reaches xs ys cancelled deviates depth batches s)
    (hends : depth < search.config.searchDepth → cancelled depth = true) :
    (∃ s', search.Starts xs ys cancelled deviates depth' s') ↔ depth' < depth := by
  constructor
  · rintro ⟨s', ⟨batches', hs'⟩, hbudget, hgoes⟩
    by_contra hge
    have hcancelled := hends (by omega)
    rcases Nat.lt_or_eq_of_le (Nat.le_of_not_lt hge) with hlt | rfl
    · obtain ⟨hgoes', -⟩ := h.exists_completes_of_lt hnamed hs' hlt
      rw [hcancelled] at hgoes'
      cases hgoes'
    · rw [hcancelled] at hgoes
      cases hgoes
  · exact h.exists_starts hnamed

theorem Starts.starts_iff (hnamed : search.IsNamed)
    (h : search.Starts xs ys cancelled deviates depth s)
    (hends : ∀ pass s', ¬ search.Completes xs ys (deviates depth) depth s pass s') :
    (∃ s', search.Starts xs ys cancelled deviates depth' s') ↔ depth' < depth + 1 := by
  obtain ⟨batches, hs⟩ := h.reaches
  constructor
  · rintro ⟨s', ⟨batches', hs'⟩, -, -⟩
    by_contra hge
    obtain ⟨-, pass, s₁, hc⟩ := hs.exists_completes_of_lt hnamed hs' (by omega)
    exact hends pass s₁ hc
  · intro hlt
    rcases Nat.lt_or_eq_of_le (Nat.le_of_lt_succ hlt) with hlt | rfl
    · exact hs.exists_starts hnamed hlt
    · exact ⟨s, h⟩

structure Recorded (search : Search M) (xs ys : List Float) (cancelled : ℕ → Bool)
    (deviates : ℕ → Deviates) (r : Run) : Prop where
  starts_iff : ∀ depth, (∃ s, search.Starts xs ys cancelled deviates depth s) ↔
    depth < search.startedCount r.termination
  startedDepths_eq : r.final.startedDepths = List.range (search.startedCount r.termination)
  length_progression : r.final.progression.length = search.startedCount r.termination
  completedDepths_eq : r.completedDepths = search.completedCount r.termination

theorem Reaches.recorded (hnamed : search.IsNamed)
    (h : search.Reaches xs ys cancelled deviates depth batches s)
    (hends : depth < search.config.searchDepth → cancelled depth = true) {reason : Termination}
    (hstarted : search.startedCount reason = depth)
    (hcompleted : search.completedCount reason = depth) :
    search.Recorded xs ys cancelled deviates ⟨s, reason⟩ := by
  constructor
  case starts_iff => exact fun depth' ↦ hstarted ▸ h.starts_iff hnamed hends
  case startedDepths_eq => rw [h.startedDepths_eq, hstarted]
  case length_progression => rw [h.length_progression, hstarted]
  case completedDepths_eq => rw [Run.completedDepths, h.countP_events, hcompleted]

theorem Starts.recorded (hnamed : search.IsNamed)
    (h : search.Starts xs ys cancelled deviates depth s)
    (hends : ∀ pass s', ¬ search.Completes xs ys (deviates depth) depth s pass s')
    {reason : Termination} (hstarted : search.startedCount reason = depth + 1)
    (hcompleted : search.completedCount reason = depth) :
    search.Recorded xs ys cancelled deviates ⟨search.started depth s, reason⟩ := by
  obtain ⟨batches, hs⟩ := h.reaches
  constructor
  case starts_iff => exact fun depth' ↦ hstarted ▸ h.starts_iff hnamed hends
  case startedDepths_eq =>
    rw [startedDepths_started, hs.startedDepths_eq, hstarted, List.range_succ]
  case length_progression => rw [hs.length_started, hstarted]
  case completedDepths_eq =>
    rw [Run.completedDepths, countP_started, hs.countP_events, hcompleted]

theorem Exits.recorded (hnamed : search.IsNamed)
    (h : search.Exits xs ys cancelled deviates r) :
    search.Recorded xs ys cancelled deviates r := by
  cases h with
  | maxDepthReached hs => exact hs.recorded hnamed (by omega) rfl rfl
  | cancelled hs hbudget hcancelled => exact hs.recorded hnamed (fun _ ↦ hcancelled) rfl rfl
  | earlyStopping hstarts hstops =>
    apply hstarts.recorded hnamed _ rfl rfl
    intro pass s' hc
    obtain ⟨batches, hs⟩ := hstarts.reaches
    exact (stop?_eq_none_iff (hs.isFalling_started hnamed) hs.length_started).1 hc.goesOn _ _ hstops
  | emptySearchSpace hstarts _ hcandidates hknown =>
    apply hstarts.recorded hnamed _ rfl rfl
    intro pass s' hc
    have hpass := hc.candidates
    rw [hc.frontier, hcandidates] at hpass
    have hfresh := hc.fresh
    rw [← Except.ok.inj hpass, freshEntries_eq_nil_iff.2 hknown] at hfresh
    exact hc.fresh_ne_nil (Except.ok.inj hfresh).symm

def EndsFor (search : Search M) (xs ys : List Float) (cancelled : ℕ → Bool)
    (deviates : ℕ → Deviates) (reason : Termination) : Prop :=
  ∃ r, search.run xs ys cancelled deviates = .ok r ∧ r.termination = reason

section

variable (hnamed : search.IsNamed) (hlast : ∃ i, lastDepth search.config.searchDepth = .ok i)

include hnamed hlast

theorem endsFor_maxDepthReached_iff {last : ℤ} :
    search.EndsFor xs ys cancelled deviates (.maxDepthReached last) ↔
      last = (search.config.searchDepth : ℤ) - 1 ∧ ∃ batches s,
        search.Reaches xs ys cancelled deviates search.config.searchDepth batches s := by
  constructor
  · rintro ⟨r, hr, hreason⟩
    cases exits_of_run hnamed hr with
    | maxDepthReached hs => exact ⟨(Termination.maxDepthReached.inj hreason).symm, _, _, hs⟩
    | _ => cases hreason
  · rintro ⟨rfl, batches, s, hs⟩
    exact ⟨_, (Exits.maxDepthReached hs).run_eq hnamed hlast, rfl⟩

theorem endsFor_cancelled_iff :
    search.EndsFor xs ys cancelled deviates (.cancelled depth) ↔
      depth < search.config.searchDepth ∧ cancelled depth = true ∧
        ∃ batches s, search.Reaches xs ys cancelled deviates depth batches s := by
  constructor
  · rintro ⟨r, hr, hreason⟩
    cases exits_of_run hnamed hr with
    | cancelled hs hbudget hcancelled =>
      cases hreason
      exact ⟨hbudget, hcancelled, _, _, hs⟩
    | _ => cases hreason
  · rintro ⟨hbudget, hcancelled, batches, s, hs⟩
    exact ⟨_, (Exits.cancelled hs hbudget hcancelled).run_eq hnamed hlast, rfl⟩

theorem endsFor_earlyStopping_iff :
    search.EndsFor xs ys cancelled deviates (.earlyStopping depth improvement threshold) ↔
      ∃ s, search.Starts xs ys cancelled deviates depth s ∧
        search.StopsEarly (search.started depth s).progression depth improvement threshold := by
  constructor
  · rintro ⟨r, hr, hreason⟩
    cases exits_of_run hnamed hr with
    | earlyStopping hstarts hstops =>
      cases hreason
      exact ⟨_, hstarts, hstops⟩
    | _ => cases hreason
  · rintro ⟨s, hstarts, hstops⟩
    exact ⟨_, (Exits.earlyStopping hstarts hstops).run_eq hnamed hlast, rfl⟩

theorem endsFor_emptySearchSpace_iff :
    search.EndsFor xs ys cancelled deviates (.emptySearchSpace depth) ↔
      ∃ s candidates, search.Starts xs ys cancelled deviates depth s ∧
        (∀ improvement threshold, ¬ search.StopsEarly (search.started depth s).progression depth
          improvement threshold) ∧
        search.candidates depth (search.frontier s) = .ok candidates ∧
        ∀ c ∈ candidates, ∃ key ∈ s.table.keys, c.key = .ok key := by
  constructor
  · rintro ⟨r, hr, hreason⟩
    cases exits_of_run hnamed hr with
    | emptySearchSpace hstarts hgoesOn hcandidates hknown =>
      cases hreason
      exact ⟨_, _, hstarts, hgoesOn, hcandidates, hknown⟩
    | _ => cases hreason
  · rintro ⟨s, candidates, hstarts, hgoesOn, hcandidates, hknown⟩
    exact ⟨_, (Exits.emptySearchSpace hstarts hgoesOn hcandidates hknown).run_eq hnamed hlast, rfl⟩

end

/-- Before the last depth that has started there was no reason to stop early. -/
theorem Starts.not_stopsEarly (hnamed : search.IsNamed)
    (h : search.Starts xs ys cancelled deviates depth s) (hlt : depth' < depth) :
    ¬ search.StopsEarly (search.started depth s).progression depth' improvement threshold := by
  obtain ⟨batches, hs⟩ := h.reaches
  intro hstops
  apply hs.not_stopsEarly hnamed
  exact hstops.of_prefix (List.prefix_append _ _) (hs.length_progression ▸ hlt)

theorem Starts.eq_of_stopsEarly (hnamed : search.IsNamed)
    (h : search.Starts xs ys cancelled deviates depth s)
    (hstops : search.StopsEarly (search.started depth s).progression depth' improvement threshold) :
    depth' = depth := by
  -- No depth after the last one has an improvement, and none before it is a reason to stop.
  obtain ⟨batches, hs⟩ := h.reaches
  have hle : depth' < depth + 1 := hs.length_started ▸ hstops.lt_length
  rcases Nat.lt_or_eq_of_le (Nat.le_of_lt_succ hle) with hlt | rfl
  · exact absurd hstops (h.not_stopsEarly hnamed hlt)
  · rfl

theorem Exits.table_eq (h : search.Exits xs ys cancelled deviates r)
    (hreason : r.termination = .emptySearchSpace depth)
    (hstarts : search.Starts xs ys cancelled deviates depth s) : r.final.table = s.table := by
  cases h with
  | emptySearchSpace hstarts' =>
    cases hreason
    obtain rfl := hstarts.state_eq hstarts'
    rfl
  | _ => cases hreason

/-- The reason that is recorded for the end of a run is what has happened. Cancellation comes before
early stopping, and early stopping before the lack of new kernels. -/
theorem run_ends_for_iff {config : Config} {backend : Backend M} {metric : Metric M}
    (hcreate : create config backend metric = .ok search)
    (hdepths : config.search.searchDepth < 2 ^ 63) (xs ys : List Float) (cancelled : ℕ → Bool)
    (deviates : ℕ → Deviates) :
    (∀ last, search.EndsFor xs ys cancelled deviates (.maxDepthReached last) ↔
      last = (config.search.searchDepth : ℤ) - 1 ∧ ∃ batches s,
        search.Reaches xs ys cancelled deviates config.search.searchDepth batches s) ∧
    (∀ depth, search.EndsFor xs ys cancelled deviates (.emptySearchSpace depth) ↔
      ∃ s candidates, search.Starts xs ys cancelled deviates depth s ∧
        (∀ improvement threshold, ¬ search.StopsEarly (search.started depth s).progression depth
          improvement threshold) ∧
        search.candidates depth (search.frontier s) = .ok candidates ∧
        ∀ c ∈ candidates, ∃ key ∈ s.table.keys, c.key = .ok key) ∧
    (∀ depth improvement threshold,
      search.EndsFor xs ys cancelled deviates (.earlyStopping depth improvement threshold) ↔
        ∃ s, search.Starts xs ys cancelled deviates depth s ∧
          search.StopsEarly (search.started depth s).progression depth improvement threshold ∧
          ∀ depth' < depth, ∀ improvement' threshold',
            ¬ search.StopsEarly (search.started depth s).progression depth' improvement'
              threshold') ∧
    (∀ depth, search.EndsFor xs ys cancelled deviates (.cancelled depth) ↔
      depth < config.search.searchDepth ∧ cancelled depth = true ∧
        ∃ batches s, search.Reaches xs ys cancelled deviates depth batches s) ∧
    ∀ r, search.run xs ys cancelled deviates = .ok r →
      search.Recorded xs ys cancelled deviates r ∧
        ∀ depth s, r.termination = .emptySearchSpace depth →
          search.Starts xs ys cancelled deviates depth s → r.final.table = s.table := by
  obtain ⟨hnamed, hconfig⟩ := create_eq_ok hcreate
  rw [← hconfig] at hdepths ⊢
  have hlast := (exists_lastDepth_iff search.config.searchDepth).2 (by omega)
  refine ⟨fun last ↦ endsFor_maxDepthReached_iff hnamed hlast,
    fun depth ↦ endsFor_emptySearchSpace_iff hnamed hlast, fun depth improvement threshold ↦ ?_,
    fun depth ↦ endsFor_cancelled_iff hnamed hlast, fun r hr ↦ ?_⟩
  · rw [endsFor_earlyStopping_iff hnamed hlast]
    refine exists_congr fun s ↦ and_congr_right fun hstarts ↦ ?_
    rw [iff_self_and]
    intro _ depth' hlt improvement' threshold'
    exact hstarts.not_stopsEarly hnamed hlt
  · have hexits := exits_of_run hnamed hr
    exact ⟨hexits.recorded hnamed, fun depth s ↦ hexits.table_eq⟩

/-- A search that is content with a half better score from one depth to the next, and does not find
one after the first depth. -/
def contentConfig : Config :=
  { smallConfig .tree 4 with search := { searchDepth := 4, stoppingThreshold := some 0.5 } }

def contentSearch : Search GaussianProcess :=
  { smallSearch .tree 4 with config := contentConfig.search }

theorem create_contentConfig :
    create contentConfig smallBackend smallMetric = .ok contentSearch := by
  rw [create, validate_eq_ok rfl rfl rfl rfl]
  rfl

deriving instance DecidableEq for Termination

theorem exists_run_contentSearch :
    ∃ r, contentSearch.run [0.0, 1.0] [0.0, 1.0] (fun _ ↦ false) (fun _ _ _ ↦ 0.0) = .ok r ∧
      r.termination = .earlyStopping 2 0.0 0.5 ∧
      r.final.progression = [Entry.infinity, 5.0, 5.0] := by decide +kernel

def sizeMetric : Metric GaussianProcess where
  name := "size"
  score m := .ok (23.0 - Float.ofNat m.kernel.labels.length)

/-- The content search with models that keep getting better, by a quarter at its second depth. -/
def growingSearch : Search GaussianProcess :=
  { contentSearch with evaluator := ⟨smallBackend, sizeMetric, none⟩ }

theorem create_growingSearch :
    create contentConfig smallBackend sizeMetric = .ok growingSearch := by
  rw [create, validate_eq_ok rfl rfl rfl rfl]
  rfl

theorem exists_run_growingSearch :
    ∃ r, growingSearch.run [0.0, 1.0] [0.0, 1.0] (fun _ ↦ false) (fun _ _ _ ↦ 0.0) = .ok r ∧
      r.termination = .earlyStopping 2 0.25 0.5 ∧
      r.final.progression = [Entry.infinity, 20.0, 15.0] := by decide +kernel

theorem growingSearch_ends_for :
    create contentConfig smallBackend sizeMetric = .ok growingSearch ∧
      contentConfig.search.searchDepth < 2 ^ 63 ∧
      growingSearch.EndsFor [0.0, 1.0] [0.0, 1.0] (fun _ ↦ false) (fun _ _ _ ↦ 0.0)
        (.earlyStopping 2 0.25 0.5) ∧
      (∃ s, growingSearch.Starts [0.0, 1.0] [0.0, 1.0] (fun _ ↦ false) (fun _ _ _ ↦ 0.0) 2 s ∧
        growingSearch.StopsEarly (growingSearch.started 2 s).progression 2 0.25 0.5) ∧
      growingSearch.EndsFor [0.0, 1.0] [0.0, 1.0] (fun _ ↦ true) (fun _ _ _ ↦ 0.0)
        (.cancelled 0) := by
  have hcreate := create_growingSearch
  obtain ⟨r, hr, hreason, -⟩ := exists_run_growingSearch
  obtain ⟨-, -, hearly, -, -⟩ := run_ends_for_iff hcreate (by decide) [0.0, 1.0] [0.0, 1.0]
    (fun _ ↦ false) fun _ _ _ ↦ 0.0
  obtain ⟨-, -, -, hcancelled, -⟩ := run_ends_for_iff hcreate (by decide) [0.0, 1.0] [0.0, 1.0]
    (fun _ ↦ true) fun _ _ _ ↦ 0.0
  obtain ⟨s, hstarts, hstops, -⟩ := (hearly 2 0.25 0.5).1 ⟨r, hr, hreason⟩
  refine ⟨hcreate, by decide, ⟨r, hr, hreason⟩, ⟨s, hstarts, hstops⟩, ?_⟩
  exact (hcancelled 0).2 ⟨by decide, rfl, [], _, .initial (initial_eq _)⟩

end Search

end CovarianceSearch
