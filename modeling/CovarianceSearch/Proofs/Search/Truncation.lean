import CovarianceSearch.Discovery
import CovarianceSearch.Proofs.Search.Growth
import CovarianceSearch.Proofs.Search.Success

namespace CovarianceSearch

/-- The configuration with other limits on how long a search goes on and how much of its table is
handed out. -/
def Config.withLimits (config : Config) (depths : Nat) (threshold : Option Float)
    (findBest : Nat) : Config :=
  { config with
    search := { config.search with
      searchDepth := depths, stoppingThreshold := threshold, findBest := findBest } }

def Evaluator.IsDeterministic {M : Type} [Model M] (ev : Evaluator M) (xs ys : List Float) : Prop :=
  ∀ trees deviates deviates', ev.evaluate xs ys trees deviates = ev.evaluate xs ys trees deviates'

theorem Evaluator.isDeterministic_of_jitter {M : Type} [Model M] {ev : Evaluator M}
    (h : ev.jitter = none) (xs ys : List Float) : ev.IsDeterministic xs ys := by
  intro trees deviates deviates'
  have hspread : ev.spread = fun m _ ↦ .ok m := by
    funext m deviates
    rw [spread, h]
  simp only [evaluate, fit, hspread]

/-- An improvement below a threshold is below every threshold that is at least as large. -/
theorem Improvement.below?_eq_some {x y improvement : Float} {progression : List Float}
    (h : below? x progression = some improvement) (hxy : x ≤ y) :
    below? y progression = some improvement := by
  unfold below? at h ⊢
  split at h
  · next current previous _ _ =>
    by_cases hlt : relative previous current < x
    · rw [if_pos hlt] at h
      rw [← h]
      exact if_pos (FloatOrder.lt_of_lt_of_le hlt hxy)
    · rw [if_neg hlt] at h
      cases h
  · cases h

def Event.isCompleted : Event → Bool
  | .completed .. => true
  | .started .. | .evaluated .. => false

namespace Search

structure SameCourse {M : Type} (search search' : Search M) : Prop where
  grammar : search.grammar = search'.grammar
  evaluator : search.evaluator = search'.evaluator
  start : search.start = search'.start
  kernelsPerDepth : search.config.kernelsPerDepth = search'.config.kernelsPerDepth
  fullInitialExpansion :
    search.config.fullInitialExpansion = search'.config.fullInitialExpansion

def Run.completedDepths (r : Run) : Nat := r.final.events.countP Event.isCompleted

/-- A run goes as far as another one and no further. -/
structure Run.Truncates (r r' : Run) : Prop where
  entries : r.final.table.entries <+: r'.final.table.entries
  progression : r.final.progression <+: r'.final.progression

/-- A state between two depths comes before one that is reached from it. -/
structure State.Precedes (s s' : State) : Prop where
  entries : s.table.entries <+: s'.table.entries
  progression : s.progression ++ [s.table.bestScore] <+: s'.progression

theorem State.Precedes.trans {s s' s'' : State} (h : s.Precedes s') (h' : s'.Precedes s'') :
    s.Precedes s'' where
  entries := h.entries.trans h'.entries
  progression :=
    h.progression.trans ((List.prefix_append _ [s'.table.bestScore]).trans h'.progression)

section

variable {M : Type} {search search' : Search M} {depth depth' : Nat} {s s' s'' : State}

theorem SameCourse.symm (h : search.SameCourse search') : search'.SameCourse search :=
  ⟨h.grammar.symm, h.evaluator.symm, h.start.symm, h.kernelsPerDepth.symm,
    h.fullInitialExpansion.symm⟩

theorem SameCourse.initial_eq (h : search.SameCourse search') :
    search.initial = search'.initial := by
  rw [initial, initial, h.grammar, h.start]

theorem SameCourse.frontier_eq (h : search.SameCourse search') (s : State) :
    search.frontier s = search'.frontier s := by
  rw [frontier, frontier, h.kernelsPerDepth]

theorem SameCourse.started_eq (h : search.SameCourse search') (depth : Nat) (s : State) :
    search.started depth s = search'.started depth s := by
  rw [started, started, h.frontier_eq]

theorem SameCourse.candidates_eq (h : search.SameCourse search') (depth : Nat)
    (frontier : List Entry) : search.candidates depth frontier =
      search'.candidates depth frontier := by
  rw [candidates, candidates, h.grammar, h.fullInitialExpansion]

theorem sameCourse_of_create {config : Config} {backend : Backend M} {metric : Metric M}
    {depths : Nat} {threshold : Option Float} {findBest : Nat}
    (hcreate : create config backend metric = .ok search)
    (hcreate' : create (config.withLimits depths threshold findBest) backend metric =
      .ok search') : search.SameCourse search' := by
  obtain ⟨_, -, h⟩ := Outcome.bind_eq_ok_iff.1 hcreate
  obtain ⟨_, -, h'⟩ := Outcome.bind_eq_ok_iff.1 hcreate'
  obtain ⟨start, hstart, h⟩ := Outcome.bind_eq_ok_iff.1 h
  obtain ⟨start', hstart', h'⟩ := Outcome.bind_eq_ok_iff.1 h'
  obtain ⟨grammar, hgrammar, h⟩ := Outcome.bind_eq_ok_iff.1 h
  obtain ⟨grammar', hgrammar', h'⟩ := Outcome.bind_eq_ok_iff.1 h'
  obtain ⟨evaluator, hevaluator, h⟩ := Outcome.bind_eq_ok_iff.1 h
  obtain ⟨evaluator', hevaluator', h'⟩ := Outcome.bind_eq_ok_iff.1 h'
  have hstarts : start = start' := Except.ok.inj (hstart.symm.trans hstart')
  have hgrammars : grammar = grammar' := Except.ok.inj (hgrammar.symm.trans hgrammar')
  have hevaluators : evaluator = evaluator' :=
    Except.ok.inj (hevaluator.symm.trans hevaluator')
  cases h
  cases h'
  exact ⟨hgrammars, hevaluators, hstarts, rfl, rfl⟩

theorem findBest_ne_zero {config : Config} {backend : Backend M} {metric : Metric M}
    (hcreate : create config backend metric = .ok search) : config.search.findBest ≠ 0 := by
  intro hzero
  obtain ⟨_, hvalidate, -⟩ := Outcome.bind_eq_ok_iff.1 hcreate
  obtain ⟨_, hsearch, -⟩ := Outcome.bind_eq_ok_iff.1 hvalidate
  have hsearch := Outcome.mapError_eq_ok_iff.1 hsearch
  simp only [SearchConfig.validate, hzero] at hsearch
  split at hsearch
  · cases hsearch
  · cases hsearch

theorem IsSound.entries_ne_nil {batches : List (List KernelTree)}
    (h : search.IsSound depth batches s) : s.table.entries ≠ [] := by
  obtain ⟨rest, hrest, -⟩ := h.seed
  rw [hrest]
  exact List.cons_ne_nil _ _

theorem countP_started (search : Search M) (depth : Nat) (s : State) :
    (search.started depth s).events.countP Event.isCompleted =
      s.events.countP Event.isCompleted := by
  simp [started, Event.isCompleted]

theorem stop?_eq_none_of_le {progression : List Float}
    (hthreshold : ∀ x ∈ search'.config.stoppingThreshold,
      ∃ y ∈ search.config.stoppingThreshold, x ≤ y)
    (h : search.stop? depth progression = none) : search'.stop? depth progression = none := by
  by_contra hstop
  obtain ⟨reason, hreason⟩ := Option.ne_none_iff_exists'.1 hstop
  obtain ⟨hdepth, x, improvement, hx, himprovement, -⟩ := stop?_eq_some_iff.1 hreason
  obtain ⟨y, hy, hxy⟩ := hthreshold x hx
  have hbelow := Improvement.below?_eq_some himprovement hxy
  rw [stop?_eq_some_iff.2 ⟨hdepth, y, improvement, hy, hbelow, rfl⟩] at h
  cases h

variable [Model M] {xs ys : List Float} {cancelled cancelled' : Nat → Bool}
  {deviates deviates' : Nat → Deviates} {batches batches' : List (List KernelTree)}
  {pass pass' : Pass} {r r' : Run}

theorem Completes.countP_events {deviates : Deviates}
    (h : search.Completes xs ys deviates depth s pass s') :
    s'.events.countP Event.isCompleted = s.events.countP Event.isCompleted + 1 := by
  have hevaluated (results : List ((Entry × Evaluation) × Nat)) (total : Nat) :
      (results.map fun r ↦ Event.evaluated r.1.1.key r.1.2.score (r.2 + 1) total).countP
        Event.isCompleted = 0 := by
    rw [List.countP_eq_zero]
    rintro event hevent
    obtain ⟨r, -, rfl⟩ := List.mem_map.1 hevent
    exact Bool.false_ne_true
  rw [h.events_eq_append, List.countP_append, List.countP_append, hevaluated, countP_started]
  rfl

theorem Reaches.countP_events (h : search.Reaches xs ys cancelled deviates depth batches s) :
    s.events.countP Event.isCompleted = depth := by
  induction h with
  | initial h =>
    rw [Search.initial_eq] at h
    cases h
    rfl
  | depth _ _ _ hc ih => rw [hc.countP_events, ih]

theorem Completes.precedes {deviates : Deviates}
    (h : search.Completes xs ys deviates depth s pass s') (hkeys : s.table.keys.Nodup) :
    s.Precedes s' := by
  obtain ⟨new, hentries, -⟩ := h.exists_new hkeys
  exact ⟨⟨new, hentries.symm⟩, h.progression_eq ▸ List.prefix_rfl⟩

theorem Reaches.exists_completes (hnamed : search.IsNamed)
    (h : search.Reaches xs ys cancelled deviates depth' batches' s') (hlt : depth < depth') :
    ∃ batches s pass s₁, search.Reaches xs ys cancelled deviates depth batches s ∧
      depth < search.config.searchDepth ∧ cancelled depth = false ∧
      search.Completes xs ys (deviates depth) depth s pass s₁ ∧ s.Precedes s' := by
  induction h with
  | initial => omega
  | @depth last batches₀ s₀ s₁ pass₀ h hbudget hcancelled hc ih =>
    have hprecedes := hc.precedes (h.isSound hnamed).keys
    rcases Nat.lt_or_eq_of_le (Nat.le_of_lt_succ hlt) with hlt | rfl
    · obtain ⟨batches, s, pass, s₂, hs, hbudget', hcancelled', hc', hprecedes'⟩ := ih hlt
      exact ⟨batches, s, pass, s₂, hs, hbudget', hcancelled', hc', hprecedes'.trans hprecedes⟩
    · exact ⟨batches₀, s₀, pass₀, s₁, h, hbudget, hcancelled, hc, hprecedes⟩

theorem Completes.unique (hcourse : search.SameCourse search')
    (hdet : search.evaluator.IsDeterministic xs ys) {deviates deviates' : Deviates}
    (h : search.Completes xs ys deviates depth s pass s')
    (h' : search'.Completes xs ys deviates' depth s pass' s'') : s' = s'' := by
  have hfrontier : pass.frontier = pass'.frontier := by
    rw [h.frontier, h'.frontier, hcourse.frontier_eq]
  have hcandidates : pass.candidates = pass'.candidates := by
    have hc := h.candidates
    rw [hcourse.candidates_eq, hfrontier, h'.candidates] at hc
    exact (Except.ok.inj hc).symm
  have hfresh : pass.fresh = pass'.fresh := by
    have hf := h.fresh
    rw [hcandidates, h'.fresh] at hf
    exact (Except.ok.inj hf).symm
  have hevaluations : pass.evaluations = pass'.evaluations := by
    have he := h.evaluations
    rw [hdet _ deviates deviates', Pass.batch, hfresh, hcourse.evaluator] at he
    exact Except.ok.inj (he.symm.trans h'.evaluations)
  rw [h.result, h'.result, hfresh, hevaluations, hcourse.started_eq]

theorem Reaches.unique (hcourse : search.SameCourse search')
    (hdet : search.evaluator.IsDeterministic xs ys)
    (h : search.Reaches xs ys cancelled deviates depth batches s)
    (h' : search'.Reaches xs ys cancelled' deviates' depth batches' s') : s = s' := by
  induction h generalizing batches' s' with
  | initial h =>
    cases h' with
    | initial h' =>
      rw [hcourse.initial_eq] at h
      exact Except.ok.inj (h.symm.trans h')
  | depth _ _ _ hc ih =>
    cases h' with
    | depth h' _ _ hc' =>
      obtain rfl := ih h'
      exact hc.unique hcourse hdet hc'

theorem Ends.progression_eq (h : search.Ends xs ys cancelled deviates depth s r) :
    r.final.progression = s.progression ∨
      r.final.progression = s.progression ++ [s.table.bestScore] :=
  h.final_eq.imp (congrArg State.progression) (congrArg State.progression)

theorem Ends.truncates_of_precedes (h : search.Ends xs ys cancelled deviates depth s r)
    (h' : search'.Ends xs ys cancelled' deviates' depth' s' r') (hprecedes : s.Precedes s') :
    r.Truncates r' := by
  have hprogression : r.final.progression <+: s.progression ++ [s.table.bestScore] := by
    rcases h.progression_eq with hr | hr <;> simp [hr]
  have hprogression' : s'.progression <+: r'.final.progression := by
    rcases h'.progression_eq with hr | hr <;> simp [hr]
  refine ⟨?_, hprogression.trans (hprecedes.progression.trans hprogression')⟩
  rw [h.table_eq, h'.table_eq]
  exact hprecedes.entries

theorem Ends.truncates_or_truncates (h : search.Ends xs ys cancelled deviates depth s r)
    (h' : search'.Ends xs ys cancelled' deviates' depth' s r') :
    r.Truncates r' ∨ r'.Truncates r := by
  have htable : r.final.table = r'.final.table := h.table_eq.trans h'.table_eq.symm
  have hprogressions : r.final.progression <+: r'.final.progression ∨
      r'.final.progression <+: r.final.progression := by
    rcases h.progression_eq with hr | hr <;> rcases h'.progression_eq with hr' | hr' <;>
      simp [hr, hr']
  refine hprogressions.imp (fun hprogression ↦ ?_) (fun hprogression ↦ ?_)
  · exact ⟨htable ▸ List.prefix_rfl, hprogression⟩
  · exact ⟨htable ▸ List.prefix_rfl, hprogression⟩

theorem Completes.step_ne_done (hcourse : search.SameCourse search') {deviates deviates' : Deviates}
    (h : search.Completes xs ys deviates depth s pass s')
    (hgoesOn : search'.stop? depth (search'.started depth s).progression = none)
    {reason : Termination} : search'.step xs ys deviates' depth s ≠ .ok (.done s'' reason) := by
  intro hstep
  rcases (step_eq_done_iff.1 hstep).2 with hstop | ⟨-, -, candidates, hcandidates, hfresh⟩
  · rw [hgoesOn] at hstop
    cases hstop
  · have hpass := h.candidates
    rw [h.frontier, hcourse.candidates_eq, hcourse.frontier_eq, hcandidates] at hpass
    have hfresh' := h.fresh
    rw [← Except.ok.inj hpass, hfresh] at hfresh'
    exact h.fresh_ne_nil (Except.ok.inj hfresh').symm

/-- A run that has ended in a state that its search reaches. -/
structure Ended (search : Search M) (xs ys : List Float) (cancelled : Nat → Bool)
    (deviates : Nat → Deviates) (depth : Nat) (s : State) (r : Run) : Prop where
  named : search.IsNamed
  reaches : ∃ batches, search.Reaches xs ys cancelled deviates depth batches s
  ends : search.Ends xs ys cancelled deviates depth s r

theorem exists_ended (hnamed : search.IsNamed) (hr : search.run xs ys cancelled deviates = .ok r) :
    ∃ depth s, search.Ended xs ys cancelled deviates depth s r := by
  obtain ⟨depth, batches, s, hs, hends⟩ := exists_ends_of_run hr
  exact ⟨depth, s, hnamed, ⟨batches, hs⟩, hends⟩

namespace Ended

section

variable (h : search.Ended xs ys cancelled deviates depth s r)

include h

theorem completedDepths_eq : r.completedDepths = depth := by
  obtain ⟨batches, hs⟩ := h.reaches
  rw [Run.completedDepths]
  rcases h.ends.final_eq with hfinal | hfinal
  · rw [hfinal, hs.countP_events]
  · rw [hfinal, countP_started, hs.countP_events]

theorem isNaN : ∀ e ∈ r.final.table.entries, e.score.isNaN = false := by
  obtain ⟨batches, hs⟩ := h.reaches
  rw [h.ends.table_eq]
  exact (hs.isSound h.named).isNaN

theorem entries_ne_nil : r.final.table.entries ≠ [] := by
  obtain ⟨batches, hs⟩ := h.reaches
  rw [h.ends.table_eq]
  exact (hs.isSound h.named).entries_ne_nil

end

section

variable (h : search.Ended xs ys cancelled deviates depth s r)
  (h' : search'.Ended xs ys cancelled' deviates' depth' s' r')
  (hcourse : search.SameCourse search') (hdet : search.evaluator.IsDeterministic xs ys)

include h h' hcourse hdet

theorem eq_or_precedes (hle : depth ≤ depth') : s = s' ∨ s.Precedes s' := by
  obtain ⟨batches, hs⟩ := h.reaches
  obtain ⟨batches', hs'⟩ := h'.reaches
  rcases Nat.lt_or_eq_of_le hle with hlt | rfl
  · obtain ⟨_, s₀, _, _, hs₀, -, -, -, hprecedes⟩ := hs'.exists_completes h'.named hlt
    obtain rfl := hs.unique hcourse hdet hs₀
    exact .inr hprecedes
  · exact .inl (hs.unique hcourse hdet hs')

theorem entries_prefix (hle : depth ≤ depth') :
    r.final.table.entries <+: r'.final.table.entries := by
  rw [h.ends.table_eq, h'.ends.table_eq]
  rcases h.eq_or_precedes h' hcourse hdet hle with rfl | hprecedes
  · exact List.prefix_rfl
  · exact hprecedes.entries

theorem truncates_or_truncates_of_le (hle : depth ≤ depth') :
    r.Truncates r' ∨ r'.Truncates r := by
  rcases h.eq_or_precedes h' hcourse hdet hle with rfl | hprecedes
  · exact h.ends.truncates_or_truncates h'.ends
  · exact .inl (h.ends.truncates_of_precedes h'.ends hprecedes)

theorem le_depth (hdepths : search.config.searchDepth ≤ search'.config.searchDepth)
    (hstop : ∀ progression, search.stop? depth' progression = none →
      search'.stop? depth' progression = none)
    (hcancelled : cancelled depth' = false → cancelled' depth' = false) : depth ≤ depth' := by
  -- Otherwise the depth at which the looser run ends has been completed by the other one.
  by_contra hlt
  obtain ⟨batches, hs⟩ := h.reaches
  obtain ⟨batches', hs'⟩ := h'.reaches
  obtain ⟨_, s₀, pass, _, hs₀, hbudget, hgoes, hc, -⟩ :=
    hs.exists_completes h.named (Nat.lt_of_not_le hlt)
  obtain rfl := hs₀.unique hcourse hdet hs'
  cases h'.ends with
  | budget hdone => omega
  | cancelled _ hend =>
    rw [hcancelled hgoes] at hend
    cases hend
  | done _ _ hstep =>
    refine hc.step_ne_done hcourse ?_ hstep
    rw [← hcourse.started_eq]
    exact hstop _ hc.goesOn

end

theorem truncates_or_truncates (h : search.Ended xs ys cancelled deviates depth s r)
    (h' : search'.Ended xs ys cancelled' deviates' depth' s' r')
    (hcourse : search.SameCourse search') (hdet : search.evaluator.IsDeterministic xs ys) :
    r.Truncates r' ∨ r'.Truncates r := by
  rcases Nat.le_total depth depth' with hle | hle
  · exact h.truncates_or_truncates_of_le h' hcourse hdet hle
  · have hdet' : search'.evaluator.IsDeterministic xs ys := hcourse.evaluator ▸ hdet
    exact (h'.truncates_or_truncates_of_le h hcourse.symm hdet' hle).symm

end Ended

theorem exists_best?_le {n n' : Nat} (hn : n ≠ 0) (hn' : n' ≠ 0)
    (hentries : r.final.table.entries <+: r'.final.table.entries)
    (hne : r.final.table.entries ≠ []) (hne' : r'.final.table.entries ≠ [])
    (hscores : ∀ e ∈ r'.final.table.entries, e.score.isNaN = false) :
    ∃ e e', (r.final.table.best n).head? = some e ∧ (r'.final.table.best n').head? = some e' ∧
      e'.score ≤ e.score := by
  obtain ⟨e, he, -, hbest⟩ := Table.exists_head?_best hne hn
  obtain ⟨e', -, hranked', hbest'⟩ := Table.exists_head?_best hne' hn'
  exact ⟨e, e', hbest, hbest', Table.score_le_of_mem_head?_ranked hscores hranked'
    (hentries.subset he)⟩

/-- The number of depths, the threshold for stopping early, the number of entries asked for and
cancellation only cut a search short. So more depths do not make the best score worse, and a larger
threshold does not have more depths completed. -/
theorem runs_truncate {config : Config} {backend : Backend M} {metric : Metric M} {depths : Nat}
    {threshold : Option Float} {findBest : Nat}
    (hcreate : create config backend metric = .ok search)
    (hcreate' : create (config.withLimits depths threshold findBest) backend metric = .ok search')
    (hdet : search.evaluator.IsDeterministic xs ys)
    (hr : search.run xs ys cancelled deviates = .ok r)
    (hr' : search'.run xs ys cancelled' deviates' = .ok r') :
    (r.Truncates r' ∨ r'.Truncates r) ∧
    (config.search.searchDepth ≤ depths → threshold = config.search.stoppingThreshold →
      cancelled' = cancelled → r'.final.table.bestScore ≤ r.final.table.bestScore ∧
        ∀ startedAt finishedAt startedAt' finishedAt', ∃ e e',
          (Discovery.ofRun config.search.findBest startedAt finishedAt r).best? = some e ∧
          (Discovery.ofRun findBest startedAt' finishedAt' r').best? = some e' ∧
          e'.score ≤ e.score) ∧
    (depths = config.search.searchDepth → cancelled' = cancelled →
      (∀ x ∈ config.search.stoppingThreshold, ∃ y ∈ threshold, x ≤ y) →
        r'.completedDepths ≤ r.completedDepths) := by
  obtain ⟨hnamed, hconfig⟩ := create_eq_ok hcreate
  obtain ⟨hnamed', hconfig'⟩ := create_eq_ok hcreate'
  have hcourse := sameCourse_of_create hcreate hcreate'
  have hdet' : search'.evaluator.IsDeterministic xs ys := hcourse.evaluator ▸ hdet
  obtain ⟨depth, s, h⟩ := exists_ended hnamed hr
  obtain ⟨depth', s', h'⟩ := exists_ended hnamed' hr'
  refine ⟨h.truncates_or_truncates h' hcourse hdet, ?_, ?_⟩
  · rintro hdepths rfl rfl
    have hbudget : search.config.searchDepth ≤ search'.config.searchDepth := by
      rw [hconfig, hconfig']
      exact hdepths
    have hstop (progression : List Float) (hgoes : search.stop? depth' progression = none) :
        search'.stop? depth' progression = none := by
      rw [stop?, hconfig] at hgoes
      rw [stop?, hconfig']
      exact hgoes
    have hle := h.le_depth h' hcourse hdet hbudget hstop id
    have hentries := h.entries_prefix h' hcourse hdet hle
    refine ⟨Table.bestScore_le_of_prefix hentries, fun _ _ _ _ ↦ ?_⟩
    exact exists_best?_le (findBest_ne_zero hcreate) (findBest_ne_zero hcreate') hentries
      h.entries_ne_nil h'.entries_ne_nil h'.isNaN
  · rintro rfl rfl hthreshold
    have hbudget : search'.config.searchDepth ≤ search.config.searchDepth := by
      rw [hconfig, hconfig']
      exact Nat.le_refl _
    have hstop (progression : List Float) (hgoes : search'.stop? depth progression = none) :
        search.stop? depth progression = none := by
      refine stop?_eq_none_of_le ?_ hgoes
      rw [hconfig, hconfig']
      exact hthreshold
    rw [h.completedDepths_eq, h'.completedDepths_eq]
    exact h'.le_depth h hcourse.symm hdet' hbudget hstop id

theorem smallSearch_truncate :
    create (smallConfig .tree 1) smallBackend smallMetric = .ok (smallSearch .tree 1) ∧
      create ((smallConfig .tree 1).withLimits 3 none 1) smallBackend smallMetric =
        .ok (smallSearch .tree 3) ∧
      (smallSearch .tree 1).evaluator.IsDeterministic [0.0, 1.0] [0.0, 1.0] ∧
      ∃ r r', (smallSearch .tree 1).run [0.0, 1.0] [0.0, 1.0] (fun _ ↦ false)
          (fun _ _ _ ↦ 0.0) = .ok r ∧
        (smallSearch .tree 3).run [0.0, 1.0] [0.0, 1.0] (fun _ ↦ false)
          (fun _ _ _ ↦ 1.0) = .ok r' ∧
        (r.Truncates r' ∨ r'.Truncates r) ∧
        r'.final.table.bestScore ≤ r.final.table.bestScore := by
  have hcreate := create_smallConfig .tree 1
  have hcreate' : create ((smallConfig .tree 1).withLimits 3 none 1) smallBackend smallMetric =
      .ok (smallSearch .tree 3) := create_smallConfig .tree 3
  have hdet : (smallSearch .tree 1).evaluator.IsDeterministic [0.0, 1.0] [0.0, 1.0] :=
    Evaluator.isDeterministic_of_jitter rfl _ _
  obtain ⟨r, hr⟩ := exists_run_smallSearch .tree 1 (by decide) (fun _ ↦ false) fun _ _ _ ↦ 0.0
  obtain ⟨r', hr'⟩ := exists_run_smallSearch .tree 3 (by decide) (fun _ ↦ false) fun _ _ _ ↦ 1.0
  obtain ⟨htruncates, hbest, -⟩ := runs_truncate hcreate hcreate' hdet hr hr'
  exact ⟨hcreate, hcreate', hdet, r, r', hr, hr', htruncates, (hbest (by decide) rfl rfl).1⟩

end

end Search

end CovarianceSearch
