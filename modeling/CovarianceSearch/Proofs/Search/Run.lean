import CovarianceSearch.GaussianProcess
import CovarianceSearch.Proofs.Search.Invariant

namespace CovarianceSearch

theorem BaseKernel.isNamed_of_require {name : String} {k : BaseKernel}
    (h : require name = .ok k) : k.IsNamed := by
  unfold require at h
  split at h
  · next hname =>
    cases h
    exact isNamed_of_ofName? hname
  · cases h

theorem BaseKernel.isNamed_of_resolve {names : List String} {ks : List BaseKernel}
    (h : resolve names = .ok ks) : ∀ k ∈ ks, k.IsNamed := by
  intro k hk
  obtain ⟨name, -, hname⟩ := exists_of_mem_forall₂ (Outcome.mapM_eq_ok_iff.1 h) hk
  exact isNamed_of_require hname

namespace Search

variable {M : Type} {search : Search M}

theorem create_eq_ok {config : Config} {backend : Backend M} {metric : Metric M}
    (h : create config backend metric = .ok search) :
    search.IsNamed ∧ search.config = config.search := by
  obtain ⟨_, -, h⟩ := Outcome.bind_eq_ok_iff.1 h
  obtain ⟨start, hstart, h⟩ := Outcome.bind_eq_ok_iff.1 h
  obtain ⟨grammar, hgrammar, h⟩ := Outcome.bind_eq_ok_iff.1 h
  obtain ⟨evaluator, -, h⟩ := Outcome.bind_eq_ok_iff.1 h
  cases h
  obtain ⟨palette, hpalette, h⟩ := Outcome.bind_eq_ok_iff.1 (Outcome.mapError_eq_ok_iff.1 hgrammar)
  cases h
  obtain ⟨baseKernels, hbase, h⟩ := Outcome.bind_eq_ok_iff.1 hpalette
  obtain ⟨excluded, -, h⟩ := Outcome.bind_eq_ok_iff.1 h
  cases h
  exact ⟨⟨BaseKernel.isNamed_of_require (Outcome.mapError_eq_ok_iff.1 hstart),
    BaseKernel.isNamed_of_resolve hbase⟩, rfl⟩

variable [Model M] {xs ys : List Float} {cancelled : Nat → Bool} {deviates : Nat → Deviates}
  {depth : Nat} {batches : List (List KernelTree)} {s : State}

/-- A run comes to an end where no step on its way fails. -/
theorem exists_runFrom (remaining : Nat)
    (hstep : ∀ {depth batches s}, search.Reaches xs ys cancelled deviates depth batches s →
      ∃ out, search.step xs ys (deviates depth) depth s = .ok out)
    (hs : search.Reaches xs ys cancelled deviates depth batches s)
    (hdepth : depth + remaining = search.config.searchDepth) :
    ∃ r, search.runFrom xs ys cancelled deviates remaining depth s = .ok r := by
  -- The depths left and the depths done add up to those of the search, so every step is allowed.
  induction remaining generalizing depth batches s with
  | zero => exact ⟨_, rfl⟩
  | succ remaining ih =>
    rw [runFrom]
    by_cases hcancelled : cancelled depth = true
    · exact ⟨_, if_pos hcancelled⟩
    · rw [if_neg hcancelled]
      obtain ⟨out, hout⟩ := hstep hs
      rw [hout]
      cases out with
      | done s' reason => exact ⟨_, rfl⟩
      | next s' =>
        obtain ⟨pass, hpass⟩ := step_eq_next_iff.1 hout
        have hnext := hs.depth (by omega) (Bool.eq_false_iff.2 hcancelled) hpass
        exact ih hnext (by omega)

/-- How a run ends that stands between two depths: the depths are used up, it is cancelled, or the
next depth is not completed. -/
inductive Ends (search : Search M) (xs ys : List Float) (cancelled : Nat → Bool)
    (deviates : Nat → Deviates) (depth : Nat) (s : State) : Run → Prop
  | budget : depth = search.config.searchDepth →
      Ends search xs ys cancelled deviates depth s ⟨s, .maxDepthReached ((depth : Int) - 1)⟩
  | cancelled : depth < search.config.searchDepth → cancelled depth = true →
      Ends search xs ys cancelled deviates depth s ⟨s, .cancelled depth⟩
  | done {s' : State} {reason : Termination} : depth < search.config.searchDepth →
      cancelled depth = false →
      search.step xs ys (deviates depth) depth s = .ok (.done s' reason) →
      Ends search xs ys cancelled deviates depth s ⟨s', reason⟩

theorem exists_ends_of_runFrom (remaining : Nat)
    (hs : search.Reaches xs ys cancelled deviates depth batches s)
    (hdepth : depth + remaining = search.config.searchDepth) {r : Run}
    (h : search.runFrom xs ys cancelled deviates remaining depth s = .ok r) :
    ∃ depth' batches' s', search.Reaches xs ys cancelled deviates depth' batches' s' ∧
      search.Ends xs ys cancelled deviates depth' s' r := by
  induction remaining generalizing depth batches s with
  | zero =>
    cases h
    exact ⟨_, _, s, hs, .budget hdepth⟩
  | succ remaining ih =>
    rw [runFrom] at h
    by_cases hcancelled : cancelled depth = true
    · rw [if_pos hcancelled] at h
      cases h
      exact ⟨_, _, s, hs, .cancelled (by omega) hcancelled⟩
    · rw [if_neg hcancelled] at h
      have hcancelled := Bool.eq_false_iff.2 hcancelled
      obtain ⟨out, hout, h⟩ := Outcome.bind_eq_ok_iff.1 h
      cases out with
      | done s' reason =>
        cases h
        exact ⟨_, _, s, hs, .done (by omega) hcancelled hout⟩
      | next s' =>
        obtain ⟨pass, hpass⟩ := step_eq_next_iff.1 hout
        have hnext := hs.depth (by omega) hcancelled hpass
        exact ih hnext (by omega) h

theorem exists_ends_of_run {r : Run} (h : search.run xs ys cancelled deviates = .ok r) :
    ∃ depth batches s, search.Reaches xs ys cancelled deviates depth batches s ∧
      search.Ends xs ys cancelled deviates depth s r := by
  rw [run] at h
  obtain ⟨s, hs, h⟩ := Outcome.bind_eq_ok_iff.1 h
  obtain ⟨r', hr', h⟩ := Outcome.bind_eq_ok_iff.1 h
  obtain ⟨_, -, h⟩ := Outcome.bind_eq_ok_iff.1 h
  cases h
  exact exists_ends_of_runFrom _ (.initial hs) (Nat.zero_add _) hr'

theorem exists_lastDepth_of_run {r : Run} (h : search.run xs ys cancelled deviates = .ok r) :
    ∃ i, lastDepth search.config.searchDepth = .ok i := by
  rw [run] at h
  obtain ⟨_, -, h⟩ := Outcome.bind_eq_ok_iff.1 h
  obtain ⟨_, -, h⟩ := Outcome.bind_eq_ok_iff.1 h
  obtain ⟨i, hi, -⟩ := Outcome.bind_eq_ok_iff.1 h
  exact ⟨i, hi⟩

/-- A run goes through every state that is reached, and on from it. -/
theorem Reaches.exists_runFrom_eq (h : search.Reaches xs ys cancelled deviates depth batches s) :
    ∃ s₀ remaining, search.initial = .ok s₀ ∧ depth + remaining = search.config.searchDepth ∧
      search.runFrom xs ys cancelled deviates search.config.searchDepth 0 s₀ =
        search.runFrom xs ys cancelled deviates remaining depth s := by
  induction h with
  | initial h => exact ⟨_, _, h, Nat.zero_add _, rfl⟩
  | @depth depth batches s s' pass _ hbudget hcancelled hc ih =>
    obtain ⟨s₀, remaining, hinitial, hsum, hrun⟩ := ih
    obtain ⟨left, rfl⟩ : ∃ left, remaining = left + 1 := ⟨remaining - 1, by omega⟩
    refine ⟨s₀, left, hinitial, by omega, hrun.trans ?_⟩
    rw [runFrom, if_neg (Bool.eq_false_iff.1 hcancelled), step_eq_next_iff.2 ⟨pass, hc⟩]
    rfl

theorem Ends.runFrom_eq {r : Run} (h : search.Ends xs ys cancelled deviates depth s r)
    {remaining : Nat} (hsum : depth + remaining = search.config.searchDepth) :
    search.runFrom xs ys cancelled deviates remaining depth s = .ok r := by
  cases h with
  | budget hdone =>
    obtain rfl : remaining = 0 := by omega
    rfl
  | cancelled hbudget hcancelled =>
    obtain ⟨left, rfl⟩ : ∃ left, remaining = left + 1 := ⟨remaining - 1, by omega⟩
    rw [runFrom, if_pos hcancelled]
    rfl
  | done hbudget hcancelled hstep =>
    obtain ⟨left, rfl⟩ : ∃ left, remaining = left + 1 := ⟨remaining - 1, by omega⟩
    rw [runFrom, if_neg (Bool.eq_false_iff.1 hcancelled), hstep]
    rfl

theorem Ends.run_eq {r : Run} (h : search.Ends xs ys cancelled deviates depth s r)
    (hs : search.Reaches xs ys cancelled deviates depth batches s)
    (hlast : ∃ i, lastDepth search.config.searchDepth = .ok i) :
    search.run xs ys cancelled deviates = .ok r := by
  obtain ⟨i, hi⟩ := hlast
  obtain ⟨s₀, remaining, hinitial, hsum, hrun⟩ := hs.exists_runFrom_eq
  rw [run]
  refine Outcome.bind_eq_ok_iff.2 ⟨s₀, hinitial, Outcome.bind_eq_ok_iff.2 ⟨r, ?_, ?_⟩⟩
  · rw [hrun, h.runFrom_eq hsum]
  · exact Outcome.bind_eq_ok_iff.2 ⟨i, hi, rfl⟩

/-- A run ends with the state that it has between two depths, or with the next depth started. -/
theorem Ends.final_eq {r : Run} (h : search.Ends xs ys cancelled deviates depth s r) :
    r.final = s ∨ r.final = search.started depth s := by
  cases h with
  | budget => exact .inl rfl
  | cancelled => exact .inl rfl
  | done _ _ hstep => exact .inr (step_eq_done_iff.1 hstep).1

theorem Ends.table_eq {r : Run} (h : search.Ends xs ys cancelled deviates depth s r) :
    r.final.table = s.table := by
  rcases h.final_eq with hfinal | hfinal <;> rw [hfinal]
  rfl

theorem exists_reaches_of_run {r : Run} (h : search.run xs ys cancelled deviates = .ok r) :
    ∃ depth batches s, search.Reaches xs ys cancelled deviates depth batches s ∧
      r.final.table = s.table := by
  obtain ⟨depth, batches, s, hs, hends⟩ := exists_ends_of_run h
  exact ⟨depth, batches, s, hs, hends.table_eq⟩

/-- Without jitter and without a bound only the search and the grammar are checked. -/
theorem validate_eq_ok {config : Config} (hsearch : config.search.validate = .ok ())
    (hgrammar : config.grammar.validate = .ok ())
    (hevaluation : config.evaluation = { jitter := false })
    (hpreprocessing : config.preprocessing = {}) : config.validate = .ok () := by
  have hjitter : EvaluationConfig.validate { jitter := false } = .ok () := by decide
  rw [Config.validate, hsearch, hgrammar, hevaluation, hjitter, hpreprocessing]
  rfl

/-- A search over two kernels that takes every model as it is built and scores all of them alike. -/
def smallConfig (kind : GrammarKind) (depths : Nat) : Config where
  search := { searchDepth := depths, kernelsPerDepth := 2, fullInitialExpansion := true }
  grammar := { kind := kind, baseKernels := ["linear", "rbf"] }
  evaluation := { jitter := false }

def smallBackend : Backend GaussianProcess := ⟨GaussianProcess.build, .ok⟩

def smallMetric : Metric GaussianProcess := ⟨"fixed", fun _ ↦ .ok 5.0⟩

def smallSearch (kind : GrammarKind) (depths : Nat) : Search GaussianProcess where
  config := (smallConfig kind depths).search
  grammar := ⟨kind, ⟨[.linear, .rbf], [], true⟩⟩
  evaluator := ⟨smallBackend, smallMetric, none⟩
  start := .white

theorem create_smallConfig (kind : GrammarKind) (depths : Nat) :
    create (smallConfig kind depths) smallBackend smallMetric = .ok (smallSearch kind depths) := by
  rw [create, validate_eq_ok rfl rfl rfl rfl]
  rfl

theorem exists_step_smallSearch :
    ∃ s, (smallSearch .tree 2).step [0.0, 1.0] [0.0, 1.0] (fun _ _ ↦ 0.0) 0
      ⟨⟨[(smallSearch .tree 2).grammar.seedEntry (smallSearch .tree 2).start]⟩, [], []⟩ =
        .ok (.next s) := by
  have hnext : (match (smallSearch .tree 2).step [0.0, 1.0] [0.0, 1.0] (fun _ _ ↦ 0.0) 0
      ⟨⟨[(smallSearch .tree 2).grammar.seedEntry (smallSearch .tree 2).start]⟩, [], []⟩ with
    | .ok (.next _) => true
    | _ => false) = true := by decide
  split at hnext
  · next s h => exact ⟨s, h⟩
  · cases hnext

end Search

end CovarianceSearch
