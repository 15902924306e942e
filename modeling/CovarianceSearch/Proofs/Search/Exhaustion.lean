import CovarianceSearch.Proofs.Grammar.Expansion
import CovarianceSearch.Proofs.Search.Truncation

namespace CovarianceSearch.Search

section

variable {depth : Nat} {table : Table} {cs : List Candidate}

theorem freshEntries_eq_nil (seen : List String)
    (h : ∀ c ∈ cs, ∃ key ∈ table.keys, c.key = .ok key) :
    freshEntries depth table seen cs = .ok [] := by
  induction cs with
  | nil => rfl
  | cons c cs ih =>
    obtain ⟨key, hmem, hkey⟩ := h c (by simp)
    have hknown : (table.contains key || key ∈ seen) = true := by
      rw [Table.contains_iff.2 hmem, Bool.true_or]
    have hrest := ih fun d hd ↦ h d (by simp [hd])
    exact Outcome.bind_eq_ok_iff.2 ⟨key, hkey, (if_pos hknown).trans hrest⟩

end

variable {M : Type} (search : Search M)

/-- Whether everything that an entry expands to is in a table. -/
def IsExhausted (t : Table) (e : Entry) : Prop :=
  ∃ cs, search.grammar.expand e = .ok cs ∧ ∀ c ∈ cs, ∃ key ∈ t.keys, c.key = .ok key

/-- The kernels that a depth expands: its frontier and, where a full expansion comes first, the
active base kernels. -/
def expandedKeys (depth : Nat) (s : State) : List String :=
  (search.frontier s).map (·.key) ++
    if depth = 0 ∧ search.config.fullInitialExpansion = true
      then search.grammar.palette.active.map (·.name) else []

def Expanded [Model M] (xs ys : List Float) (cancelled : Nat → Bool) (deviates : Nat → Deviates)
    (depth : Nat) (key : String) : Prop :=
  ∃ depth' < depth, ∃ batches s, search.Reaches xs ys cancelled deviates depth' batches s ∧
    key ∈ search.expandedKeys depth' s

variable {search} {t t' : Table} {e : Entry} {depth : Nat} {s s' : State}

theorem IsExhausted.mono (h : search.IsExhausted t e) (hgrown : t.entries <+: t'.entries) :
    search.IsExhausted t' e := by
  obtain ⟨cs, hcs, hkeys⟩ := h
  refine ⟨cs, hcs, fun c hc ↦ ?_⟩
  obtain ⟨key, hmem, hkey⟩ := hkeys c hc
  exact ⟨key, (hgrown.map (·.key)).subset hmem, hkey⟩

theorem kernelsPerDepth_ne_zero {config : Config} {backend : Backend M} {metric : Metric M}
    (hcreate : create config backend metric = .ok search) :
    config.search.kernelsPerDepth ≠ 0 := by
  intro hzero
  obtain ⟨_, hvalidate, -⟩ := Outcome.bind_eq_ok_iff.1 hcreate
  obtain ⟨_, hsearch, -⟩ := Outcome.bind_eq_ok_iff.1 hvalidate
  have hsearch := Outcome.mapError_eq_ok_iff.1 hsearch
  simp only [SearchConfig.validate, hzero] at hsearch
  cases hsearch

theorem mem_frontier_iff_of_one (hone : search.config.kernelsPerDepth = 1) :
    e ∈ search.frontier s ↔ e ∈ s.table.ranked.head? := by
  rw [frontier, Table.best, hone, List.take_one, Option.mem_toList, Option.mem_def]

theorem frontier_ne_nil (hwidth : search.config.kernelsPerDepth ≠ 0)
    (h : s.table.entries ≠ []) : search.frontier s ≠ [] := by
  obtain ⟨e, -, -, he⟩ := Table.exists_head?_best h hwidth
  exact List.ne_nil_of_mem (List.mem_of_mem_head? he)

/-- After depth zero, exhausted entries expand to nothing new. -/
theorem exists_candidates_of_isExhausted (hdepth : depth ≠ 0)
    (h : ∀ e ∈ search.frontier s, search.IsExhausted s.table e) :
    ∃ cs, search.candidates depth (search.frontier s) = .ok cs ∧
      freshEntries depth s.table [] cs = .ok [] := by
  obtain ⟨steps, hsteps, hkeys⟩ := Outcome.exists_mapM_and_forall_flatten h
  have hsteps := Outcome.mapM_eq_ok_iff.1 hsteps
  refine ⟨steps.flatten, candidates_eq_ok_iff.2 ⟨steps, [], hsteps, ?_, ?_⟩,
    freshEntries_eq_nil [] hkeys⟩
  · rw [if_neg fun hfirst ↦ hdepth hfirst.1]
    exact .nil
  · rw [List.flatten_nil, List.append_nil]

variable [Model M] {xs ys : List Float} {cancelled : Nat → Bool} {deviates : Nat → Deviates}
  {batches batches' : List (List KernelTree)} {pass : Pass}

/-- Whatever a depth expands, a completed one has all of it in the table. -/
theorem Completes.isExhausted {deviates : Deviates}
    (h : search.Completes xs ys deviates depth s pass s') (hkeys : s.table.keys.Nodup)
    (hexpand : ∃ step, search.grammar.expand e = .ok step ∧ step ⊆ pass.candidates) :
    search.IsExhausted s'.table e := by
  obtain ⟨step, hstep, hsub⟩ := hexpand
  refine ⟨step, hstep, fun c hc ↦ ?_⟩
  obtain ⟨key, hkey, hknown⟩ := mem_keys_of_freshEntries h.fresh (hsub hc)
  obtain ⟨-, -, -, -, hnew⟩ := h.exists_new hkeys
  exact ⟨key, hnew ▸ hknown, hkey⟩

theorem Completes.isExhausted_of_mem_frontier {deviates : Deviates}
    (h : search.Completes xs ys deviates depth s pass s') (hkeys : s.table.keys.Nodup)
    (he : e ∈ search.frontier s) : search.IsExhausted s'.table e := by
  obtain ⟨steps, bases, hsteps, -, hcandidates⟩ := candidates_eq_ok_iff.1 h.candidates
  obtain ⟨step, hmem, hstep⟩ := exists_of_mem_forall₂ hsteps.flip (h.frontier ▸ he)
  refine h.isExhausted hkeys ⟨step, hstep, fun c hc ↦ ?_⟩
  rw [hcandidates]
  exact List.mem_append_left _ (List.mem_flatten.2 ⟨step, hmem, hc⟩)

theorem Completes.isExhausted_seedEntry {deviates : Deviates}
    (h : search.Completes xs ys deviates 0 s pass s') (hkeys : s.table.keys.Nodup)
    (hfull : search.config.fullInitialExpansion = true) {k : BaseKernel}
    (hk : k ∈ search.grammar.palette.active) :
    search.IsExhausted s'.table (search.grammar.seedEntry k) := by
  obtain ⟨steps, bases, -, hbases, hcandidates⟩ := candidates_eq_ok_iff.1 h.candidates
  rw [if_pos ⟨rfl, hfull⟩] at hbases
  obtain ⟨step, hmem, hstep⟩ := exists_of_mem_forall₂ hbases.flip hk
  refine h.isExhausted hkeys ⟨step, hstep, fun c hc ↦ ?_⟩
  rw [hcandidates]
  exact List.mem_append_right _ (List.mem_flatten.2 ⟨step, hmem, hc⟩)

theorem Completes.exists_eq_seeds_append (hnamed : search.IsNamed) {deviates : Deviates}
    (h : search.Completes xs ys deviates depth s pass s') (hne : search.frontier s ≠ []) :
    ∃ rest, pass.candidates = search.grammar.palette.active.map search.grammar.seed ++ rest := by
  obtain ⟨steps, bases, hsteps, -, hcandidates⟩ := candidates_eq_ok_iff.1 h.candidates
  obtain ⟨first, others, hfrontier⟩ := List.exists_cons_of_ne_nil hne
  rw [h.frontier, hfrontier] at hsteps
  obtain ⟨step, steps, hstep, -, rfl⟩ := List.forall₂_cons_left_iff.1 hsteps
  obtain ⟨rest, rfl⟩ := Grammar.exists_eq_seeds_append hnamed.palette hstep
  rw [hcandidates, List.flatten_cons, List.append_assoc, List.append_assoc]
  exact ⟨_, rfl⟩

theorem Completes.exists_entered_seed (hnamed : search.IsNamed) {deviates : Deviates}
    (h : search.Completes xs ys deviates depth s pass s') (hne : search.frontier s ≠ [])
    (hkeys : s.table.keys.Nodup) {k : BaseKernel} (hk : k ∈ search.grammar.palette.active)
    (hunknown : k.name ∉ s.table.keys) :
    ∃ e ∈ s'.table.entries, e.Keeps (search.grammar.seed k) := by
  obtain ⟨new, hentries, hnew, -⟩ := h.exists_new hkeys
  obtain ⟨rest, hrest⟩ := h.exists_eq_seeds_append hnamed hne
  have hunknown : (search.grammar.seed k).key ∉ knownKeys s.table [] := by
    rw [key_seed]
    simpa [knownKeys] using hunknown
  have hmem : search.grammar.seed k ∈ search.grammar.palette.active.map search.grammar.seed :=
    List.mem_map_of_mem hk
  have hfirst := (mem_or_mem_map_firstOccurrences hmem).resolve_left hunknown
  obtain ⟨c, hc, hkey⟩ := List.mem_map.1 hfirst
  obtain ⟨k', -, rfl⟩ := List.mem_map.1 (mem_of_mem_firstOccurrences hc)
  rw [key_seed, key_seed] at hkey
  obtain rfl := BaseKernel.name_injective (Except.ok.inj hkey)
  rw [hrest] at hnew
  obtain ⟨e, he, hce⟩ := exists_of_mem_forall₂ hnew.flip (mem_firstOccurrences_append hc rest)
  rw [hentries]
  exact ⟨e, List.mem_append_right _ he, hce.toKeeps⟩

/-- After the first depth every active base kernel is in the table as what it was written as. -/
theorem Completes.exists_seed (hnamed : search.IsNamed)
    (hwidth : search.config.kernelsPerDepth ≠ 0) (hinitial : search.initial = .ok s)
    {deviates : Deviates} (h : search.Completes xs ys deviates 0 s pass s') {k : BaseKernel}
    (hk : k ∈ search.grammar.palette.active) :
    ∃ e ∈ s'.table.entries, e.Keeps (search.grammar.seed k) := by
  have hsound := isSound_initial hnamed hinitial
  by_cases hstart : k = search.start
  · have hgrown := (h.precedes hsound.keys).entries
    rw [initial_eq] at hinitial
    cases hinitial
    rw [hstart]
    exact ⟨_, hgrown.subset List.mem_cons_self, keeps_seedEntry _ _⟩
  · have hne := frontier_ne_nil hwidth hsound.entries_ne_nil
    refine h.exists_entered_seed hnamed hne hsound.keys hk ?_
    rw [initial_eq] at hinitial
    cases hinitial
    intro hname
    exact hstart (BaseKernel.name_injective (List.mem_singleton.1 hname))

theorem Reaches.state_eq (h : search.Reaches xs ys cancelled deviates depth batches s)
    (h' : search.Reaches xs ys cancelled deviates depth batches' s') : s = s' := by
  induction h generalizing batches' s' with
  | initial h =>
    cases h' with
    | initial h' => exact Except.ok.inj (h.symm.trans h')
  | depth _ _ _ hc ih =>
    cases h' with
    | depth h' _ _ hc' =>
      obtain rfl := ih h'
      have hnext := step_eq_next_iff.2 ⟨_, hc⟩
      have hnext' := step_eq_next_iff.2 ⟨_, hc'⟩
      cases Except.ok.inj (hnext.symm.trans hnext')
      rfl

theorem Reaches.exists_isExhausted_of_completes (hnamed : search.IsNamed)
    (hwidth : search.config.kernelsPerDepth ≠ 0)
    (h : search.Reaches xs ys cancelled deviates depth batches s)
    (hc : search.Completes xs ys (deviates depth) depth s pass s') {key : String}
    (hkey : key ∈ search.expandedKeys depth s) :
    ∃ e ∈ s'.table.entries, e.key = key ∧ search.IsExhausted s'.table e := by
  have hkeys := (h.isSound hnamed).keys
  rcases List.mem_append.1 hkey with hfrontier | hbase
  · obtain ⟨e, he, rfl⟩ := List.mem_map.1 hfrontier
    have hgrown := (hc.precedes hkeys).entries
    exact ⟨e, hgrown.subset (mem_frontier he), rfl, hc.isExhausted_of_mem_frontier hkeys he⟩
  · split at hbase
    · next hfirst =>
      obtain ⟨rfl, hfull⟩ := hfirst
      obtain ⟨k, hk, rfl⟩ := List.mem_map.1 hbase
      cases h with
      | initial h =>
        obtain ⟨e, he, hkeeps⟩ := hc.exists_seed hnamed hwidth h hk
        have hexhausted := hc.isExhausted_seedEntry hkeys hfull hk
        rw [IsExhausted, ← hkeeps.expand_eq (keeps_seedEntry _ _)] at hexhausted
        exact ⟨e, he, Except.ok.inj (hkeeps.key.symm.trans (key_seed _ k)), hexhausted⟩
    · cases hbase

/-- What an earlier depth has expanded is in the table, and is exhausted. -/
theorem Reaches.exists_isExhausted (hnamed : search.IsNamed)
    (hwidth : search.config.kernelsPerDepth ≠ 0)
    (h : search.Reaches xs ys cancelled deviates depth batches s) {key : String}
    (hexpanded : search.Expanded xs ys cancelled deviates depth key) :
    ∃ e ∈ s.table.entries, e.key = key ∧ search.IsExhausted s.table e := by
  obtain ⟨depth', hlt, batches', s', h', hkey⟩ := hexpanded
  induction h with
  | initial => omega
  | @depth last _ s₀ s₁ pass h _ _ hc ih =>
    rcases Nat.lt_or_eq_of_le (Nat.le_of_lt_succ hlt) with hlt | rfl
    · have hgrown := (hc.precedes (h.isSound hnamed).keys).entries
      obtain ⟨e, he, hname, hexhausted⟩ := ih hlt
      exact ⟨e, hgrown.subset he, hname, hexhausted.mono hgrown⟩
    · obtain rfl := h.state_eq h'
      exact h.exists_isExhausted_of_completes hnamed hwidth hc hkey

theorem Reaches.isExhausted_of_expanded (hnamed : search.IsNamed)
    (hwidth : search.config.kernelsPerDepth ≠ 0)
    (h : search.Reaches xs ys cancelled deviates depth batches s) (he : e ∈ s.table.entries)
    (hexpanded : search.Expanded xs ys cancelled deviates depth e.key) :
    search.IsExhausted s.table e := by
  obtain ⟨e', he', hkey, hexhausted⟩ := h.exists_isExhausted hnamed hwidth hexpanded
  obtain rfl := List.inj_on_of_nodup_map (h.isSound hnamed).keys he' he hkey
  exact hexhausted

/-- A depth that would only expand kernels again ends a search. -/
theorem Reaches.step_eq_done (hnamed : search.IsNamed) (hwidth : search.config.kernelsPerDepth ≠ 0)
    (h : search.Reaches xs ys cancelled deviates depth batches s)
    (hgoesOn : search.stop? depth (search.started depth s).progression = none)
    (hexpanded : ∀ e ∈ search.frontier s, search.Expanded xs ys cancelled deviates depth e.key) :
    search.step xs ys (deviates depth) depth s =
      .ok (.done (search.started depth s) (.emptySearchSpace depth)) := by
  -- The frontier has an entry, which can have been expanded after the first depth only.
  have hdepth : depth ≠ 0 := by
    obtain ⟨e, he⟩ := List.exists_mem_of_ne_nil _
      (frontier_ne_nil hwidth (h.isSound hnamed).entries_ne_nil)
    obtain ⟨depth', hlt, -⟩ := hexpanded e he
    omega
  refine step_eq_done_iff.2 ⟨rfl, .inr ⟨hgoesOn, rfl, ?_⟩⟩
  refine exists_candidates_of_isExhausted hdepth fun e he ↦ ?_
  exact h.isExhausted_of_expanded hnamed hwidth (mem_frontier he) (hexpanded e he)

/-- Every depth that is completed expands a kernel that was not expanded before. -/
theorem Reaches.exists_not_expanded (hnamed : search.IsNamed)
    (hwidth : search.config.kernelsPerDepth ≠ 0)
    (h : search.Reaches xs ys cancelled deviates depth batches s)
    (hc : search.Completes xs ys (deviates depth) depth s pass s') :
    ∃ e ∈ search.frontier s, ¬ search.Expanded xs ys cancelled deviates depth e.key := by
  by_contra hall
  push Not at hall
  have hdone := h.step_eq_done hnamed hwidth hc.goesOn hall
  rw [step_eq_next_iff.2 ⟨pass, hc⟩] at hdone
  cases hdone

theorem Reaches.exists_of_mem_progression (hnamed : search.IsNamed)
    (h : search.Reaches xs ys cancelled deviates depth batches s) {x : Float}
    (hx : x ∈ s.progression) : ∃ depth' < depth, ∃ batches' s',
      search.Reaches xs ys cancelled deviates depth' batches' s' ∧
        s'.table.entries <+: s.table.entries ∧ x = s'.table.bestScore := by
  induction h with
  | initial h =>
    rw [initial_eq] at h
    cases h
    cases hx
  | @depth last batches₀ s₀ s₁ pass h _ _ hc ih =>
    have hgrown := (hc.precedes (h.isSound hnamed).keys).entries
    rw [hc.progression_eq] at hx
    rcases List.mem_append.1 hx with hx | hx
    · obtain ⟨depth', hlt, batches', s', h', hgrown', hx⟩ := ih hx
      exact ⟨depth', Nat.lt_succ_of_lt hlt, batches', s', h', hgrown'.trans hgrown, hx⟩
    · exact ⟨last, Nat.lt_succ_self last, batches₀, s₀, h, hgrown, List.mem_singleton.1 hx⟩

/-- With one kernel in the frontier, a depth that is completed starts with a better score than all
depths before it. -/
theorem Completes.bestScore_lt (hnamed : search.IsNamed)
    (hone : search.config.kernelsPerDepth = 1)
    (h : search.Reaches xs ys cancelled deviates depth batches s)
    (hc : search.Completes xs ys (deviates depth) depth s pass s') :
    ∀ x ∈ s.progression, s.table.bestScore < x := by
  intro x hx
  obtain ⟨depth', hlt, batches₀, s₀, h₀, hgrown, rfl⟩ := h.exists_of_mem_progression hnamed hx
  have hsound := h.isSound hnamed
  have hsound₀ := h₀.isSound hnamed
  obtain ⟨e₀, hmem₀, hfirst₀, -⟩ :=
    Table.exists_head?_best hsound₀.entries_ne_nil Nat.one_ne_zero
  obtain ⟨e, he, hnew⟩ := h.exists_not_expanded hnamed (hone ▸ Nat.one_ne_zero) hc
  have hne : e ≠ e₀ := by
    rintro rfl
    have hexpanded := (mem_frontier_iff_of_one hone).2 hfirst₀
    exact hnew ⟨depth', hlt, batches₀, s₀, h₀,
      List.mem_append_left _ (List.mem_map_of_mem hexpanded)⟩
  have hfirst := (mem_frontier_iff_of_one hone).1 he
  have hbest : s.table.bestScore ≤ e.score := by
    rw [Table.bestScore_eq]
    refine Table.foldl_better_le_of_mem Entry.isNaN_infinity ?_ ?_
    · exact List.forall_mem_map.2 hsound.isNaN
    · exact List.mem_map_of_mem (mem_frontier he)
  have hbest₀ : e₀.score ≤ s₀.table.bestScore := by
    rw [Table.bestScore_eq]
    refine Table.le_foldl_better (Entry.le_infinity (hsound₀.isNaN e₀ hmem₀)) ?_
    refine List.forall_mem_map.2 fun e he ↦ ?_
    exact Table.score_le_of_mem_head?_ranked hsound₀.isNaN hfirst₀ he
  have hlt : e.score < e₀.score :=
    Table.score_lt_of_first_ne hgrown hsound.isNaN hfirst₀ hfirst hne
  exact FloatOrder.lt_of_le_of_lt hbest (FloatOrder.lt_of_lt_of_le hlt hbest₀)

theorem Reaches.pairwise_progression (hnamed : search.IsNamed)
    (hone : search.config.kernelsPerDepth = 1)
    (h : search.Reaches xs ys cancelled deviates depth batches s) :
    s.progression.Pairwise fun x y ↦ y < x := by
  induction h with
  | initial h =>
    rw [initial_eq] at h
    cases h
    exact .nil
  | depth h _ _ hc ih =>
    rw [hc.progression_eq]
    refine List.pairwise_append.2 ⟨ih, List.pairwise_singleton _ _, fun x hx y hy ↦ ?_⟩
    rw [List.mem_singleton.1 hy]
    exact hc.bestScore_lt hnamed hone h x hx

/-- A search does not work on an exhausted frontier. A depth with nothing but kernels that were
expanded before ends the run and adds nothing, so every depth that is completed expands a kernel for
the first time. With one kernel in the frontier the progression falls strictly, but for its end. -/
theorem run_ends_where_exhausted {config : Config} {backend : Backend M} {metric : Metric M}
    (hcreate : create config backend metric = .ok search) (xs ys : List Float)
    (cancelled : Nat → Bool) (deviates : Nat → Deviates) :
    (∀ depth batches s, search.Reaches xs ys cancelled deviates depth batches s →
      depth < config.search.searchDepth → cancelled depth = false →
      search.stop? depth (search.started depth s).progression = none →
      (∀ e ∈ search.frontier s, search.Expanded xs ys cancelled deviates depth e.key) →
        search.step xs ys (deviates depth) depth s =
            .ok (.done (search.started depth s) (.emptySearchSpace depth)) ∧
          (search.started depth s).table = s.table ∧
          ∀ r, search.run xs ys cancelled deviates = .ok r ↔
            config.search.searchDepth % 2 ^ 64 ≠ 2 ^ 63 ∧
              r = ⟨search.started depth s, .emptySearchSpace depth⟩) ∧
    (∀ depth batches s s', search.Reaches xs ys cancelled deviates depth batches s →
      search.step xs ys (deviates depth) depth s = .ok (.next s') →
        ∃ e ∈ search.frontier s, ¬ search.Expanded xs ys cancelled deviates depth e.key) ∧
    (config.search.kernelsPerDepth = 1 → ∀ r, search.run xs ys cancelled deviates = .ok r →
      r.final.progression.dropLast.Pairwise fun x y ↦ y < x) := by
  obtain ⟨hnamed, hconfig⟩ := create_eq_ok hcreate
  have hwidth := kernelsPerDepth_ne_zero hcreate
  rw [← hconfig] at hwidth ⊢
  refine ⟨fun depth batches s hs hdepth hcancelled hgoesOn hexpanded ↦ ?_,
    fun depth batches s s' hs hstep ↦ ?_, fun hone r hr ↦ ?_⟩
  · have hdone := hs.step_eq_done hnamed hwidth hgoesOn hexpanded
    have hends := Ends.done hdepth hcancelled hdone
    refine ⟨hdone, rfl, fun r ↦ ?_⟩
    rw [← exists_lastDepth_iff]
    constructor
    · intro hr
      have hlast := exists_lastDepth_of_run hr
      exact ⟨hlast, Except.ok.inj (hr.symm.trans (hends.run_eq hs hlast))⟩
    · rintro ⟨hlast, rfl⟩
      exact hends.run_eq hs hlast
  · obtain ⟨pass, hc⟩ := step_eq_next_iff.1 hstep
    exact hs.exists_not_expanded hnamed hwidth hc
  · obtain ⟨depth, s, hended⟩ := exists_ended hnamed hr
    obtain ⟨batches, hs⟩ := hended.reaches
    have hpairwise := hs.pairwise_progression hnamed hone
    rcases hended.ends.progression_eq with hr | hr
    · rw [hr]
      exact hpairwise.sublist (List.dropLast_sublist _)
    · rw [hr, List.dropLast_concat]
      exact hpairwise

def hopelessConfig : Config where
  search := { searchDepth := 3 }
  grammar := { baseKernels := ["white"] }
  evaluation := { jitter := false }

def hopelessMetric : Metric GaussianProcess := ⟨"none", fun _ ↦ .error (.fit .nonFinite)⟩

def hopelessSearch : Search GaussianProcess where
  config := hopelessConfig.search
  grammar := ⟨.tree, ⟨[.white], [], true⟩⟩
  evaluator := ⟨smallBackend, hopelessMetric, none⟩
  start := .white

theorem create_hopelessConfig :
    create hopelessConfig smallBackend hopelessMetric = .ok hopelessSearch := by
  rw [create, validate_eq_ok rfl rfl rfl rfl]
  rfl

/-- After the first depth the starting kernel, which has no score either, is ahead of the others. -/
theorem exists_step_hopelessSearch :
    ∃ s, hopelessSearch.step [0.0, 1.0] [0.0, 1.0] (fun _ _ ↦ 0.0) 0
      ⟨⟨[hopelessSearch.grammar.seedEntry hopelessSearch.start]⟩, [], []⟩ = .ok (.next s) ∧
      (hopelessSearch.frontier s).map (·.key) = ["white"] := by
  have hnext : (match hopelessSearch.step [0.0, 1.0] [0.0, 1.0] (fun _ _ ↦ 0.0) 0
      ⟨⟨[hopelessSearch.grammar.seedEntry hopelessSearch.start]⟩, [], []⟩ with
    | .ok (.next s) => decide ((hopelessSearch.frontier s).map (·.key) = ["white"])
    | _ => false) = true := by decide
  split at hnext
  · next s h => exact ⟨s, h, of_decide_eq_true hnext⟩
  · cases hnext

theorem hopelessSearch_ends_at_one :
    create hopelessConfig smallBackend hopelessMetric = .ok hopelessSearch ∧
      ∃ batches s r, hopelessSearch.Reaches [0.0, 1.0] [0.0, 1.0] (fun _ ↦ false)
          (fun _ _ _ ↦ 0.0) 1 batches s ∧
        hopelessSearch.run [0.0, 1.0] [0.0, 1.0] (fun _ ↦ false) (fun _ _ _ ↦ 0.0) = .ok r ∧
        r.termination = .emptySearchSpace 1 ∧ r.final.table = s.table ∧
        r.final.progression.length = 2 ∧
        r.final.progression.dropLast.Pairwise fun x y ↦ y < x := by
  have hcreate := create_hopelessConfig
  obtain ⟨s, hstep, hfrontier⟩ := exists_step_hopelessSearch
  obtain ⟨pass, hpass⟩ := step_eq_next_iff.1 hstep
  have hinitial : hopelessSearch.Reaches [0.0, 1.0] [0.0, 1.0] (fun _ ↦ false)
      (fun _ _ _ ↦ 0.0) 0 [] _ := .initial (initial_eq _)
  have hreaches := hinitial.depth (by decide) rfl hpass
  obtain ⟨hends, -, hfalls⟩ := run_ends_where_exhausted hcreate [0.0, 1.0] [0.0, 1.0]
    (fun _ ↦ false) fun _ _ _ ↦ 0.0
  obtain ⟨-, -, hrun⟩ := hends 1 _ s hreaches (by decide) rfl rfl fun e he ↦ by
    have hkey : e.key ∈ (hopelessSearch.frontier s).map (·.key) := List.mem_map_of_mem he
    rw [hfrontier] at hkey
    exact ⟨0, Nat.zero_lt_one, [], _, hinitial, by rw [List.mem_singleton.1 hkey]; decide⟩
  have hr := (hrun _).2 ⟨by decide, rfl⟩
  refine ⟨hcreate, _, s, _, hreaches, hr, rfl, rfl, ?_, hfalls rfl _ hr⟩
  change (s.progression ++ [s.table.bestScore]).length = 2
  rw [hpass.progression_eq]
  rfl

end CovarianceSearch.Search
