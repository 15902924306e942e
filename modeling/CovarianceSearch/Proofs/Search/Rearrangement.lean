import CovarianceSearch.Proofs.Search.Success
import CovarianceSearch.Proofs.Search.Trees

namespace CovarianceSearch

theorem forall₂_of_map_eq {α β γ : Type} {f : α → γ} {g : β → γ} {as : List α} {bs : List β}
    (h : as.map f = bs.map g) : List.Forall₂ (fun a b ↦ a ∈ as ∧ b ∈ bs ∧ f a = g b) as bs := by
  have heq : List.Forall₂ (fun a b ↦ f a = g b) as bs :=
    List.forall₂_map_left_iff.1 (List.forall₂_map_right_iff.1 (h ▸ List.forall₂_refl _))
  obtain ⟨hlength, hzip⟩ := List.forall₂_iff_zip.1 heq
  refine List.forall₂_iff_zip.2 ⟨hlength, fun {a b} hab ↦ ?_⟩
  exact ⟨(List.of_mem_zip hab).1, (List.of_mem_zip hab).2, hzip hab⟩

theorem map_zip_eq_map {α β γ : Type} {f : α × β → γ} {g : α → γ} {as : List α} {bs : List β}
    (h : List.Forall₂ (fun a b ↦ f (a, b) = g a) as bs) : (as.zip bs).map f = as.map g := by
  induction h with
  | nil => rfl
  | cons hab _ ih => rw [List.zip_cons_cons, List.map_cons, List.map_cons, hab, ih]

def Evaluator.ScoresKeys {M : Type} [Model M] (ev : Evaluator M) (xs ys : List Float)
    (score : String → Float) : Prop :=
  ∀ (t : KernelTree) (key : String), t.simplify.text = .ok key →
    ev.Scores xs ys t.simplify (score key)

def Config.withBaseKernels (config : Config) (names : List String) : Config :=
  { config with grammar := { config.grammar with baseKernels := names } }

theorem GrammarConfig.validate_of_perm {c : GrammarConfig} (h : c.validate = .ok ())
    {names : List String} (hperm : c.baseKernels.Perm names) :
    { c with baseKernels := names }.validate = .ok () := by
  obtain ⟨kernels, hkernels, h⟩ := Outcome.bind_eq_ok_iff.1 h
  obtain ⟨excluded, hexcluded, h⟩ := Outcome.bind_eq_ok_iff.1 h
  obtain ⟨kernels', hkernels', -⟩ := Outcome.exists_mapM_of_perm hperm hkernels
  refine Outcome.bind_eq_ok_iff.2 ⟨kernels', hkernels', ?_⟩
  refine Outcome.bind_eq_ok_iff.2 ⟨excluded, hexcluded, ?_⟩
  rw [hperm.all_eq] at h
  exact h

theorem Config.validate_withBaseKernels {config : Config} (h : config.validate = .ok ())
    {names : List String} (hperm : config.grammar.baseKernels.Perm names) :
    (config.withBaseKernels names).validate = .ok () := by
  obtain ⟨_, hsearch, h⟩ := Outcome.bind_eq_ok_iff.1 h
  obtain ⟨_, hgrammar, h⟩ := Outcome.bind_eq_ok_iff.1 h
  have hgrammar' := GrammarConfig.validate_of_perm (Outcome.mapError_eq_ok_iff.1 hgrammar) hperm
  refine Outcome.bind_eq_ok_iff.2 ⟨(), hsearch, ?_⟩
  exact Outcome.bind_eq_ok_iff.2 ⟨(), Outcome.mapError_eq_ok_iff.2 hgrammar', h⟩

namespace Search

structure Rearranges {M : Type} (search search' : Search M) : Prop where
  config : search.config = search'.config
  kind : search.grammar.kind = .tree
  kind' : search'.grammar.kind = .tree
  palette : search.grammar.palette.Rearranges search'.grammar.palette
  evaluator : search.evaluator = search'.evaluator
  start : search.start = search'.start

structure State.Rearranges (s s' : State) : Prop where
  view : s.table.view.Perm s'.table.view
  progression : s.progression = s'.progression

theorem State.Rearranges.symm {s s' : State} (h : s.Rearranges s') : s'.Rearranges s :=
  ⟨h.view.symm, h.progression.symm⟩

theorem State.Rearranges.perm_keys {s s' : State} (h : s.Rearranges s') :
    s.table.keys.Perm s'.table.keys := by
  rw [← Table.view_keys, ← Table.view_keys]
  exact h.view.map _

/-- What a search over trees can rely on between two depths. -/
structure IsOrdered {M : Type} (search : Search M) (depth : Nat) (s : State) : Prop where
  sound : ∃ batches, search.IsSound depth batches s
  stored : ∀ e ∈ s.table.entries, e.tree.IsStored

variable {M : Type} {search search' : Search M} {depth : Nat} {s s' s₁ : State}

theorem Rearranges.symm (h : search.Rearranges search') : search'.Rearranges search :=
  ⟨h.config.symm, h.kind', h.kind, h.palette.symm, h.evaluator.symm, h.start.symm⟩

theorem Rearranges.initial (hsearch : search.Rearranges search') (h : search.initial = .ok s)
    (h' : search'.initial = .ok s') : s.Rearranges s' := by
  rw [initial_eq] at h h'
  cases h
  cases h'
  refine ⟨?_, rfl⟩
  simp only [Table.view, List.map_cons, List.map_nil, Grammar.seedEntry, hsearch.start]
  exact .refl _

theorem IsOrdered.isNaN (h : search.IsOrdered depth s) :
    ∀ e ∈ s.table.entries, e.score.isNaN = false := by
  obtain ⟨batches, hsound⟩ := h.sound
  exact hsound.isNaN

theorem IsOrdered.text_simplify (h : search.IsOrdered depth s) {e : Entry}
    (he : e ∈ s.table.entries) : e.tree.simplify.text = .ok e.key := by
  obtain ⟨batches, hsound⟩ := h.sound
  obtain ⟨c, -, hkeeps⟩ := hsound.keeps e he
  rw [(h.stored e he).simplify_eq, hkeeps.tree]
  exact hkeeps.key

theorem IsOrdered.alike (h : search.IsOrdered depth s) (h' : search'.IsOrdered depth s')
    {e e' : Entry} (he : e ∈ s.table.entries) (he' : e' ∈ s'.table.entries)
    (hkey : e.key = e'.key) : KernelTree.Alike e.tree e'.tree := by
  refine (KernelTree.alike_iff (h.stored e he).valid (h'.stored e' he').valid).2 ?_
  rw [h.text_simplify he, h'.text_simplify he', hkey]

/-- Two searches that differ in the order of their base kernels, in states between two depths that
differ in order only. -/
structure Paired (search search' : Search M) (depth : Nat) (s s' : State) : Prop where
  searches : search.Rearranges search'
  ordered : search.IsOrdered depth s
  ordered' : search'.IsOrdered depth s'
  states : s.Rearranges s'
  tieFree : s.table.TieFree

namespace Paired

variable (h : Paired search search' depth s s')

include h

theorem symm : Paired search' search depth s' s :=
  ⟨h.searches.symm, h.ordered', h.ordered, h.states.symm, h.tieFree.of_perm h.states.view⟩

theorem best_view_eq (n : Nat) :
    (s.table.best n).map Entry.view = (s'.table.best n).map Entry.view := by
  rw [Table.best, Table.best, List.map_take, List.map_take,
    h.tieFree.map_view_ranked_eq h.states.view h.ordered.isNaN h.ordered'.isNaN]

theorem frontier_keys_eq :
    (search.frontier s).map (·.key) = (search'.frontier s').map (·.key) := by
  have hview := congrArg (List.map Prod.fst) (h.best_view_eq search.config.kernelsPerDepth)
  rw [List.map_map, List.map_map] at hview
  rw [frontier, frontier, ← h.searches.config]
  exact hview

theorem started : (search.started depth s).Rearranges (search'.started depth s') := by
  refine ⟨h.states.view, ?_⟩
  simp only [Search.started]
  rw [h.states.progression, h.tieFree.bestScore_eq h.states.view]

theorem stop?_eq : search.stop? depth (search.started depth s).progression =
    search'.stop? depth (search'.started depth s').progression := by
  rw [h.started.progression, stop?, stop?, h.searches.config]

theorem perm_keys_candidates {cs cs' : List Candidate}
    (hcs : search.candidates depth (search.frontier s) = .ok cs)
    (hcs' : search'.candidates depth (search'.frontier s') = .ok cs') :
    (cs.map Candidate.key).Perm (cs'.map Candidate.key) := by
  rw [candidates_eq_of_tree h.searches.kind
    fun e he ↦ (h.ordered.stored e (mem_frontier he)).valid] at hcs
  rw [candidates_eq_of_tree h.searches.kind'
    fun e he ↦ (h.ordered'.stored e (mem_frontier he)).valid] at hcs'
  have hfull : search'.isFull depth = search.isFull depth := by
    rw [isFull, isFull, h.searches.config]
  have hfrontier : List.Forall₂ (fun t u ↦ t.IsStored ∧ u.IsStored ∧ KernelTree.Alike t u)
      ((search.frontier s).map (·.tree)) ((search'.frontier s').map (·.tree)) := by
    rw [List.forall₂_map_left_iff, List.forall₂_map_right_iff]
    refine (forall₂_of_map_eq h.frontier_keys_eq).imp ?_
    rintro e e' ⟨he, he', hkey⟩
    have he := mem_frontier he
    have he' := mem_frontier he'
    exact ⟨h.ordered.stored e he, h.ordered'.stored e' he',
      h.ordered.alike h.ordered' he he' hkey⟩
  rw [← Except.ok.inj hcs, ← Except.ok.inj hcs', List.map_map, List.map_map, hfull]
  exact h.searches.palette.perm_keys_frontierSteps _ hfrontier

theorem perm_keys_fresh {cs cs' : List Candidate} {fresh fresh' : List Entry}
    (hcs : search.candidates depth (search.frontier s) = .ok cs)
    (hcs' : search'.candidates depth (search'.frontier s') = .ok cs')
    (hfresh : freshEntries depth s.table [] cs = .ok fresh)
    (hfresh' : freshEntries depth s'.table [] cs' = .ok fresh') :
    (fresh.map (·.key)).Perm (fresh'.map (·.key)) := by
  obtain ⟨_, hsound⟩ := h.ordered.sound
  obtain ⟨_, hsound'⟩ := h.ordered'.sound
  have hnodup := (List.nodup_append.1 (nodup_keys_of_freshEntries hsound.keys hfresh)).2.1
  have hnodup' := (List.nodup_append.1 (nodup_keys_of_freshEntries hsound'.keys hfresh')).2.1
  have hcandidates := h.perm_keys_candidates hcs hcs'
  refine (List.perm_ext_iff_of_nodup hnodup hnodup').2 fun key ↦ ?_
  rw [mem_keys_freshEntries_iff hfresh, mem_keys_freshEntries_iff hfresh',
    hcandidates.mem_iff, h.states.perm_keys.mem_iff]

end Paired

variable [Model M] {xs ys : List Float} {score : String → Float} {cancelled : Nat → Bool}
  {deviates deviates' : Nat → Deviates}

theorem Completes.view_eq {deviates : Deviates} {pass : Pass}
    (h : search.Completes xs ys deviates depth s pass s') (hkeys : s.table.keys.Nodup)
    (hscores : search.evaluator.ScoresKeys xs ys score) :
    s'.table.view = s.table.view ++
      (pass.fresh.map (·.key)).map fun key ↦ (key, depth, score key) := by
  have hnew : ∀ e ∈ pass.fresh, ∃ c : Candidate, Entry.IsNew depth c e := by
    intro e he
    obtain ⟨c, -, hc⟩ := exists_of_mem_forall₂ (forall₂_of_freshEntries h.fresh) he
    exact ⟨c, hc⟩
  have hfixed : List.Forall₂ (search.evaluator.Scores xs ys) pass.batch
      (pass.fresh.map fun e ↦ score e.key) := by
    rw [Pass.batch, List.forall₂_map_left_iff, List.forall₂_map_right_iff]
    refine List.forall₂_same.2 fun e he ↦ ?_
    obtain ⟨c, hc⟩ := hnew e he
    rw [hc.tree]
    exact hscores c.tree e.key hc.key
  have hevaluated := Evaluator.map_score_evaluate hfixed h.evaluations
  rw [Table.view, h.entries_eq hkeys, List.map_append, List.map_map, List.map_map]
  refine congrArg (s.table.view ++ ·) (map_zip_eq_map ?_)
  refine (forall₂_of_map_eq hevaluated.symm).imp ?_
  rintro e v ⟨he, -, hscore⟩
  obtain ⟨c, hc⟩ := hnew e he
  simp only [Function.comp_apply, Entry.view, Entry.scored]
  rw [hc.depth_eq, ← hscore]

theorem simplifiedFitsReturn_of_scoresKeys (h : search.evaluator.ScoresKeys xs ys score) :
    search.SimplifiedFitsReturn xs ys := by
  intro t ht k deviates hk hmissing
  obtain ⟨params, hfit⟩ := h t _ ht.text_simplify k deviates hk
  rw [hfit] at hmissing
  cases hmissing

theorem Paired.exists_completes (h : Paired search search' depth s s') (deviates' : Deviates)
    (hnamed' : search'.IsNamed) (hscores : search.evaluator.ScoresKeys xs ys score)
    {deviates : Deviates} {pass : Pass} (hc : search.Completes xs ys deviates depth s pass s₁) :
    ∃ pass' s₁', search'.Completes xs ys deviates' depth s' pass' s₁' ∧ s₁.Rearranges s₁' := by
  obtain ⟨_, hsound⟩ := h.ordered.sound
  obtain ⟨_, hsound'⟩ := h.ordered'.sound
  have hscores' : search'.evaluator.ScoresKeys xs ys score := h.searches.evaluator ▸ hscores
  obtain ⟨cs', fresh', evaluations', hcs', hfresh', hevaluations'⟩ :=
    hsound'.exists_evaluations_of_simplified hnamed'
      (simplifiedFitsReturn_of_scoresKeys hscores') deviates'
  have hcs := hc.candidates
  rw [hc.frontier] at hcs
  have hkeys := h.perm_keys_fresh hcs hcs' hc.fresh hfresh'
  have hne : fresh' ≠ [] := by
    rintro rfl
    exact hc.fresh_ne_nil (List.map_eq_nil_iff.1 hkeys.eq_nil)
  have hc' : search'.Completes xs ys deviates' depth s'
      ⟨search'.frontier s', cs', fresh', evaluations'⟩
      (completed depth (search'.started depth s') fresh' evaluations') :=
    ⟨h.stop?_eq ▸ hc.goesOn, rfl, hcs', hfresh', hne, hevaluations', rfl⟩
  refine ⟨_, _, hc', ?_, ?_⟩
  · rw [hc.view_eq hsound.keys hscores, hc'.view_eq hsound'.keys hscores']
    exact h.states.view.append (hkeys.map _)
  · rw [hc.progression_eq, hc'.progression_eq]
    exact h.started.progression

theorem Paired.exists_ends (h : Paired search search' depth s s') (deviates' : Nat → Deviates)
    (hnamed' : search'.IsNamed) {r : Run}
    (hends : search.Ends xs ys cancelled deviates depth s r) :
    ∃ r', search'.Ends xs ys cancelled deviates' depth s' r' ∧ r.final.Rearranges r'.final ∧
      r.termination = r'.termination := by
  have hconfig := h.searches.config
  cases hends with
  | budget hdone => exact ⟨_, .budget (hconfig ▸ hdone), h.states, rfl⟩
  | cancelled hbudget hcancelled =>
    exact ⟨_, .cancelled (hconfig ▸ hbudget) hcancelled, h.states, rfl⟩
  | done hbudget hcancelled hstep =>
    obtain ⟨rfl, hreason⟩ := step_eq_done_iff.1 hstep
    rw [h.stop?_eq] at hreason
    refine ⟨_, .done (hconfig ▸ hbudget) hcancelled (step_eq_done_iff.2 ⟨rfl, ?_⟩), h.started, rfl⟩
    rcases hreason with hstop | ⟨hstop, hempty, cs, hcs, hfresh⟩
    · exact .inl hstop
    · obtain ⟨_, hsound'⟩ := h.ordered'.sound
      obtain ⟨cs', hcs', hadmits⟩ := hsound'.exists_candidates hnamed'
      obtain ⟨fresh', hfresh'⟩ :=
        exists_freshEntries depth s'.table [] fun c hc ↦ (hadmits c hc).valid
      have hkeys := h.perm_keys_fresh hcs hcs' hfresh hfresh'
      obtain rfl : fresh' = [] := List.map_eq_nil_iff.1 hkeys.nil_eq.symm
      exact .inr ⟨hstop, hempty, cs', hcs', hfresh'⟩

theorem Reaches.isOrdered (hnamed : search.IsNamed) (hkind : search.grammar.kind = .tree)
    {batches : List (List KernelTree)}
    (h : search.Reaches xs ys cancelled deviates depth batches s) : search.IsOrdered depth s :=
  ⟨⟨batches, h.isSound hnamed⟩, h.isStored hnamed hkind⟩

section

variable (hsearch : search.Rearranges search') (hnamed : search.IsNamed)
  (hnamed' : search'.IsNamed) (hscores : search.evaluator.ScoresKeys xs ys score)
  (hties : ∀ depth batches s, search.Reaches xs ys cancelled deviates depth batches s →
    s.table.TieFree)

include hsearch hnamed hnamed' hties

theorem paired_of_reaches {batches batches' : List (List KernelTree)}
    (hs : search.Reaches xs ys cancelled deviates depth batches s)
    (hs' : search'.Reaches xs ys cancelled deviates' depth batches' s')
    (hstates : s.Rearranges s') : Paired search search' depth s s' :=
  ⟨hsearch, hs.isOrdered hnamed hsearch.kind, hs'.isOrdered hnamed' hsearch.kind', hstates,
    hties _ _ _ hs⟩

theorem paired_initial (h : search.initial = .ok s) (h' : search'.initial = .ok s') :
    Paired search search' 0 s s' := by
  have hs : search.Reaches xs ys cancelled deviates 0 [] s := .initial h
  have hs' : search'.Reaches xs ys cancelled deviates 0 [] s' := .initial h'
  exact paired_of_reaches hsearch hnamed hnamed' hties hs hs' (hsearch.initial h h')

include hscores

/-- Whatever one search reaches the other one reaches as well, in its own order. -/
theorem exists_paired (deviates' : Nat → Deviates) {batches : List (List KernelTree)}
    (hs : search.Reaches xs ys cancelled deviates depth batches s) :
    ∃ batches' s', search'.Reaches xs ys cancelled deviates' depth batches' s' ∧
      Paired search search' depth s s' := by
  induction hs with
  | initial h =>
    have h' := initial_eq search'
    exact ⟨_, _, .initial h', paired_initial hsearch hnamed hnamed' hties h h'⟩
  | depth hs hbudget hcancelled hc ih =>
    obtain ⟨batches', s', hs', hpaired⟩ := ih
    obtain ⟨pass', s₁', hc', hstates⟩ := hpaired.exists_completes _ hnamed' hscores hc
    have hnext := hs.depth hbudget hcancelled hc
    have hnext' := hs'.depth (hsearch.config ▸ hbudget) hcancelled hc'
    exact ⟨_, _, hnext', paired_of_reaches hsearch hnamed hnamed' hties hnext hnext' hstates⟩

theorem exists_paired_right {batches' : List (List KernelTree)}
    (hs' : search'.Reaches xs ys cancelled deviates' depth batches' s') :
    ∃ batches s, search.Reaches xs ys cancelled deviates depth batches s ∧
      Paired search search' depth s s' := by
  have hscores' : search'.evaluator.ScoresKeys xs ys score := hsearch.evaluator ▸ hscores
  induction hs' with
  | initial h' =>
    have h := initial_eq search
    exact ⟨_, _, .initial h, paired_initial hsearch hnamed hnamed' hties h h'⟩
  | depth hs' hbudget hcancelled hc' ih =>
    obtain ⟨batches, s, hs, hpaired⟩ := ih
    obtain ⟨pass, s₁, hc, hstates⟩ := hpaired.symm.exists_completes _ hnamed hscores' hc'
    have hnext' := hs'.depth hbudget hcancelled hc'
    have hnext := hs.depth (hsearch.config ▸ hbudget) hcancelled hc
    exact ⟨_, _, hnext,
      paired_of_reaches hsearch hnamed hnamed' hties hnext hnext' hstates.symm⟩

end

omit [Model M] in
theorem exists_create_of_perm {config : Config} {backend : Backend M} {metric : Metric M}
    (hcreate : create config backend metric = .ok search) (hkind : config.grammar.kind = .tree)
    {names : List String} (hperm : config.grammar.baseKernels.Perm names) :
    ∃ search', create (config.withBaseKernels names) backend metric = .ok search' ∧
      search.Rearranges search' := by
  obtain ⟨_, hvalidate, h⟩ := Outcome.bind_eq_ok_iff.1 hcreate
  obtain ⟨start, hstart, h⟩ := Outcome.bind_eq_ok_iff.1 h
  obtain ⟨grammar, hgrammar, h⟩ := Outcome.bind_eq_ok_iff.1 h
  obtain ⟨evaluator, hevaluator, h⟩ := Outcome.bind_eq_ok_iff.1 h
  cases h
  obtain ⟨palette, hpalette, h⟩ := Outcome.bind_eq_ok_iff.1 (Outcome.mapError_eq_ok_iff.1 hgrammar)
  cases h
  obtain ⟨kernels, hkernels, h⟩ := Outcome.bind_eq_ok_iff.1 hpalette
  obtain ⟨excluded, hexcluded, h⟩ := Outcome.bind_eq_ok_iff.1 h
  cases h
  obtain ⟨kernels', hkernels', hkernelsPerm⟩ := Outcome.exists_mapM_of_perm hperm hkernels
  have hvalidate' := Config.validate_withBaseKernels hvalidate hperm
  have hgrammar' : (config.withBaseKernels names).grammar.grammar =
      .ok ⟨config.grammar.kind, ⟨kernels', excluded, config.grammar.laxConstant⟩⟩ := by
    refine Outcome.bind_eq_ok_iff.2 ⟨_, Outcome.bind_eq_ok_iff.2 ⟨kernels', hkernels', ?_⟩, rfl⟩
    exact Outcome.bind_eq_ok_iff.2 ⟨excluded, hexcluded, rfl⟩
  refine ⟨_, Outcome.bind_eq_ok_iff.2 ⟨(), hvalidate', Outcome.bind_eq_ok_iff.2 ⟨start, hstart,
    Outcome.bind_eq_ok_iff.2 ⟨_, Outcome.mapError_eq_ok_iff.2 hgrammar',
      Outcome.bind_eq_ok_iff.2 ⟨evaluator, hevaluator, rfl⟩⟩⟩⟩, ?_⟩
  exact ⟨rfl, hkind, hkind, ⟨hkernelsPerm, rfl, rfl⟩, rfl, rfl⟩

/-- Two states of two searches that an onlooker cannot tell apart, except for the order in which
keys came up. -/
structure Agrees (search search' : Search M) (s s' : State) : Prop where
  keys : ∀ key, key ∈ s.table.keys ↔ key ∈ s'.table.keys
  frontier : (search.frontier s).map (·.key) = (search'.frontier s').map (·.key)
  progression : s.progression = s'.progression

/-- Two runs with the same outcome, where `n` entries are asked for. -/
structure Run.Agrees (n : Nat) (r r' : Run) : Prop where
  progression : r.final.progression = r'.final.progression
  termination : r.termination = r'.termination
  kernels : (r.final.table.best n).map Entry.view = (r'.final.table.best n).map Entry.view

omit [Model M] in
theorem Paired.agrees (h : Paired search search' depth s s') : search.Agrees search' s s' :=
  ⟨fun _ ↦ h.states.perm_keys.mem_iff, h.frontier_keys_eq, h.states.progression⟩

/-- The order of the base kernels does not matter to a search over trees unless scores tie. Another
order is accepted, both searches reach the same depths with the same keys, and their runs end with
the same outcome, or both without one where the last depth cannot be counted. -/
theorem agrees_withBaseKernels {config : Config} {backend : Backend M} {metric : Metric M}
    (hcreate : create config backend metric = .ok search) (hkind : config.grammar.kind = .tree)
    {names : List String} (hperm : config.grammar.baseKernels.Perm names)
    (hscores : search.evaluator.ScoresKeys xs ys score)
    (hties : ∀ depth batches s, search.Reaches xs ys cancelled deviates depth batches s →
      s.table.TieFree) :
    ∃ search', create (config.withBaseKernels names) backend metric = .ok search' ∧
      ∀ deviates',
        (∀ depth batches s, search.Reaches xs ys cancelled deviates depth batches s →
          ∃ batches' s', search'.Reaches xs ys cancelled deviates' depth batches' s' ∧
            search.Agrees search' s s') ∧
        (∀ depth batches' s', search'.Reaches xs ys cancelled deviates' depth batches' s' →
          ∃ batches s, search.Reaches xs ys cancelled deviates depth batches s ∧
            search.Agrees search' s s') ∧
        (config.search.searchDepth % 2 ^ 64 ≠ 2 ^ 63 →
          ∃ r r', search.run xs ys cancelled deviates = .ok r ∧
            search'.run xs ys cancelled deviates' = .ok r' ∧
            r.Agrees config.search.findBest r') ∧
        (config.search.searchDepth % 2 ^ 64 = 2 ^ 63 →
          ∀ r, search.run xs ys cancelled deviates ≠ .ok r ∧
            search'.run xs ys cancelled deviates' ≠ .ok r) := by
  obtain ⟨search', hcreate', hsearch⟩ := exists_create_of_perm hcreate hkind hperm
  obtain ⟨hnamed, hconfig⟩ := create_eq_ok hcreate
  obtain ⟨hnamed', -⟩ := create_eq_ok hcreate'
  have hscores' : search'.evaluator.ScoresKeys xs ys score := hsearch.evaluator ▸ hscores
  have hruns := exists_run_iff_of_simplified hnamed
    (simplifiedFitsReturn_of_scoresKeys hscores) cancelled deviates
  have hlast : (∃ i, lastDepth search.config.searchDepth = .ok i) ↔
      config.search.searchDepth % 2 ^ 64 ≠ 2 ^ 63 := by
    rw [exists_lastDepth_iff, hconfig]
  refine ⟨search', hcreate', fun deviates' ↦ ⟨?_, ?_, ?_, ?_⟩⟩
  · intro depth batches s hs
    obtain ⟨batches', s', hs', hpaired⟩ :=
      exists_paired hsearch hnamed hnamed' hscores hties deviates' hs
    exact ⟨batches', s', hs', hpaired.agrees⟩
  · intro depth batches' s' hs'
    obtain ⟨batches, s, hs, hpaired⟩ :=
      exists_paired_right hsearch hnamed hnamed' hscores hties hs'
    exact ⟨batches, s, hs, hpaired.agrees⟩
  · intro hdepths
    obtain ⟨r, hr⟩ := hruns.2 (hlast.2 hdepths)
    have hlast' : ∃ i, lastDepth search'.config.searchDepth = .ok i :=
      hsearch.config ▸ hlast.2 hdepths
    obtain ⟨depth, batches, s, hs, hends⟩ := exists_ends_of_run hr
    obtain ⟨batches', s', hs', hpaired⟩ :=
      exists_paired hsearch hnamed hnamed' hscores hties deviates' hs
    obtain ⟨r', hends', hfinal, htermination⟩ := hpaired.exists_ends deviates' hnamed' hends
    refine ⟨r, r', hr, hends'.run_eq hs' hlast', hfinal.progression, htermination, ?_⟩
    rw [hends.table_eq, hends'.table_eq]
    exact hpaired.best_view_eq _
  · intro hdepths r
    have hruns' := exists_run_iff_of_simplified hnamed'
      (simplifiedFitsReturn_of_scoresKeys hscores') cancelled deviates'
    rw [← hsearch.config] at hruns'
    exact ⟨fun hr ↦ hlast.1 (hruns.1 ⟨r, hr⟩) hdepths,
      fun hr ↦ hlast.1 (hruns'.1 ⟨r, hr⟩) hdepths⟩

def scoreOfKey : String → Float
  | "linear" => 1.0
  | "linear + white" => 2.0
  | "linear * white" => 3.0
  | "linear * white + white" => 4.0
  | "rbf" => 5.0
  | "rbf + white" => 6.0
  | "white + white" => 7.0
  | _ => 8.0

def keyConfig : Config where
  search := { searchDepth := 1 }
  grammar := { baseKernels := ["linear", "rbf"] }
  evaluation := { jitter := false }

def keyMetric : Metric GaussianProcess where
  name := "key"
  score m := match m.kernel.toTree.text with
    | .ok key => .ok (scoreOfKey key)
    | .error _ => .error (.fit .nonFinite)

def keySearch : Search GaussianProcess where
  config := keyConfig.search
  grammar := ⟨.tree, ⟨[.linear, .rbf], [], true⟩⟩
  evaluator := ⟨smallBackend, keyMetric, none⟩
  start := .white

theorem create_keyConfig : create keyConfig smallBackend keyMetric = .ok keySearch := by
  rw [create, validate_eq_ok rfl rfl rfl rfl]
  rfl

theorem isFinite_scoreOfKey (key : String) : (scoreOfKey key).isFinite = true := by
  unfold scoreOfKey
  split <;> decide

theorem scoresKeys_keySearch :
    keySearch.evaluator.ScoresKeys [0.0, 1.0] [0.0, 1.0] scoreOfKey := by
  intro t key hkey k deviates hk
  have htext : k.toTree.text = .ok key := by rw [Kernel.toTree_of_ofTree hk, hkey]
  have hscore : keyMetric.score ⟨[0.0, 1.0], [0.0, 1.0], k, 1.0⟩ = .ok (scoreOfKey key) := by
    simp only [keyMetric, htext]
  refine ⟨Model.parameters (⟨[0.0, 1.0], [0.0, 1.0], k, 1.0⟩ : GaussianProcess), ?_⟩
  refine Outcome.bind_eq_ok_iff.2 ⟨_, rfl, Outcome.bind_eq_ok_iff.2 ⟨_, rfl,
    Outcome.bind_eq_ok_iff.2 ⟨_, rfl, Outcome.bind_eq_ok_iff.2 ⟨_, hscore, ?_⟩⟩⟩⟩
  exact if_pos (isFinite_scoreOfKey key)

theorem tieFree_keySearch {depth : Nat} {batches : List (List KernelTree)} {s : State}
    (hs : keySearch.Reaches [0.0, 1.0] [0.0, 1.0] (fun _ ↦ false) (fun _ _ _ ↦ 0.0) depth batches
      s) : s.table.TieFree := by
  have hstep : (match keySearch.step [0.0, 1.0] [0.0, 1.0] (fun _ _ ↦ 0.0) 0
      ⟨⟨[keySearch.grammar.seedEntry keySearch.start]⟩, [], []⟩ with
    | .ok (.next s) => decide s.table.TieFree
    | _ => true) = true := by decide
  cases hs with
  | initial h =>
    rw [initial_eq] at h
    cases h
    exact List.pairwise_singleton _ _
  | depth hs hbudget _ hc =>
    cases hs with
    | initial h =>
      rw [initial_eq] at h
      cases h
      rw [step_eq_next_iff.2 ⟨_, hc⟩] at hstep
      exact of_decide_eq_true hstep
    | depth => exact absurd hbudget (by simp [keySearch, keyConfig])

theorem keySearch_agrees :
    create keyConfig smallBackend keyMetric = .ok keySearch ∧
      keyConfig.grammar.kind = .tree ∧
      keyConfig.grammar.baseKernels.Perm ["rbf", "linear"] ∧
      keySearch.evaluator.ScoresKeys [0.0, 1.0] [0.0, 1.0] scoreOfKey ∧
      (∀ depth batches s, keySearch.Reaches [0.0, 1.0] [0.0, 1.0] (fun _ ↦ false)
        (fun _ _ _ ↦ 0.0) depth batches s → s.table.TieFree) ∧
      ∃ search', create (keyConfig.withBaseKernels ["rbf", "linear"]) smallBackend keyMetric =
          .ok search' ∧
        ∃ r r', keySearch.run [0.0, 1.0] [0.0, 1.0] (fun _ ↦ false) (fun _ _ _ ↦ 0.0) = .ok r ∧
          search'.run [0.0, 1.0] [0.0, 1.0] (fun _ ↦ false) (fun _ _ _ ↦ 1.0) = .ok r' ∧
          r.Agrees 1 r' := by
  have hperm : keyConfig.grammar.baseKernels.Perm ["rbf", "linear"] := List.Perm.swap _ _ _
  have hties : ∀ depth batches s, keySearch.Reaches [0.0, 1.0] [0.0, 1.0] (fun _ ↦ false)
      (fun _ _ _ ↦ 0.0) depth batches s → s.table.TieFree := fun _ _ _ ↦ tieFree_keySearch
  obtain ⟨search', hcreate', hagrees⟩ :=
    agrees_withBaseKernels create_keyConfig rfl hperm scoresKeys_keySearch hties
  have hruns := (hagrees fun _ _ _ ↦ 1.0).2.2.1 (by decide)
  exact ⟨create_keyConfig, rfl, hperm, scoresKeys_keySearch, hties, search', hcreate', hruns⟩

end Search

end CovarianceSearch
