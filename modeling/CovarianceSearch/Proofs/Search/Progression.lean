import CovarianceSearch.Proofs.Search.Ending
import CovarianceSearch.Proofs.Search.TableInvariant

namespace CovarianceSearch.Search

variable {M : Type} {search : Search M} {depth : ℕ} {s s' : State} {progression : List Float}
  {improvement threshold : Float} {batches : List (List KernelTree)}

variable [Model M] {xs ys : List Float} {cancelled : ℕ → Bool} {deviates : ℕ → Deviates} {r : Run}

/-- What holds of the best scores at the starts of the depths so far. -/
structure ProgressionInvariant (search : Search M) (xs ys : List Float) (cancelled : ℕ → Bool)
    (deviates : ℕ → Deviates) (s : State) : Prop where
  depths : s.startedDepths = List.range s.progression.length
  first : ∀ x ∈ s.progression.head?, x = Entry.infinity
  falls : s.progression.Pairwise fun x y ↦ y ≤ x
  isNaN : ∀ x ∈ s.progression, x.isNaN = false
  least : ∀ depth x, s.progression[depth]? = some x → ∃ s',
    search.Starts xs ys cancelled deviates depth s' ∧ s'.table.IsLeastScore x
  improvement : ∀ depth x y, 1 ≤ depth → s.progression[depth - 1]? = some x →
    s.progression[depth]? = some y →
    Improvement.IsGain x y (Improvement.relative x y) ∧ (Improvement.relative x y).isNaN = false ∧
      0.0 ≤ Improvement.relative x y ∧ Improvement.relative x y ≤ Entry.infinity

theorem ProgressionInvariant.of_eq
    (h : search.ProgressionInvariant xs ys cancelled deviates s)
    (hprogression : s'.progression = s.progression)
    (hdepths : s'.startedDepths = s.startedDepths) :
    search.ProgressionInvariant xs ys cancelled deviates s' := by
  obtain ⟨h₁, h₂, h₃, h₄, h₅, h₆⟩ := h
  rw [← hprogression] at h₁ h₂ h₃ h₄ h₅ h₆
  exact ⟨hdepths.trans h₁, h₂, h₃, h₄, h₅, h₆⟩

theorem ProgressionInvariant.least_started (hnamed : search.IsNamed)
    (h : search.ProgressionInvariant xs ys cancelled deviates s)
    (hstarts : search.Starts xs ys cancelled deviates depth s) {d : ℕ} {x : Float}
    (hx : (s.progression ++ [s.table.bestScore])[d]? = some x) :
    ∃ s', search.Starts xs ys cancelled deviates d s' ∧ s'.table.IsLeastScore x := by
  obtain ⟨batches, hs⟩ := hstarts.reaches
  have hlength := hs.length_progression
  rcases Nat.lt_or_ge d s.progression.length with hlt | hge
  · rw [List.getElem?_append_left hlt] at hx
    exact h.least d x hx
  · rw [List.getElem?_append_right hge] at hx
    obtain ⟨hd, rfl⟩ := List.getElem?_eq_some_iff.1 hx
    obtain rfl : d = depth := by
      rw [List.length_singleton] at hd
      omega
    exact ⟨s, hstarts, by simpa using (hs.isSound hnamed).isLeastScore⟩

theorem ProgressionInvariant.started (hnamed : search.IsNamed)
    (h : search.ProgressionInvariant xs ys cancelled deviates s)
    (hstarts : search.Starts xs ys cancelled deviates depth s) :
    search.ProgressionInvariant xs ys cancelled deviates (search.started depth s) := by
  obtain ⟨batches, hs⟩ := hstarts.reaches
  have hlength := hs.length_progression
  have hfalling := hs.isFalling_started hnamed
  constructor
  case depths =>
    rw [startedDepths_started, h.depths]
    change _ = List.range (s.progression ++ [s.table.bestScore]).length
    rw [List.length_append, List.length_singleton, List.range_succ, hlength]
  case first =>
    intro x hx
    change x ∈ (s.progression ++ [s.table.bestScore]).head? at hx
    cases hs with
    | initial hinitial =>
      rw [initial_eq] at hinitial
      cases hinitial
      rw [← Option.mem_some.1 hx]
      exact ite_self _
    | depth _ _ _ hc =>
      apply h.first
      rwa [List.head?_append_of_ne_nil _ (List.ne_nil_of_length_eq_add_one hlength)] at hx
  case falls => exact hfalling.falls
  case isNaN =>
    apply List.forall_mem_append.2 ⟨h.isNaN, ?_⟩
    exact List.forall_mem_singleton.2 s.table.isNaN_bestScore
  case least =>
    intro d x hx
    exact h.least_started hnamed hstarts hx
  case improvement =>
    intro d x y hd hx hy
    have hgain := hfalling.isGain_relative hd hx hy
    exact ⟨hgain, hgain.bounds (hfalling.isScore y (List.mem_of_getElem? hy))⟩

theorem Reaches.progressionInvariant (hnamed : search.IsNamed)
    (h : search.Reaches xs ys cancelled deviates depth batches s) :
    search.ProgressionInvariant xs ys cancelled deviates s := by
  induction h with
  | initial h =>
    rw [initial_eq] at h
    cases h
    constructor
    case improvement =>
      intro d x y _ hx
      cases hx
    all_goals simp [State.startedDepths]
  | depth h hbudget hcancelled hc ih =>
    -- The start of the depth is where the progression grows, completing it adds nothing to it.
    have hstarted := ih.started hnamed ⟨⟨_, h⟩, hbudget, hcancelled⟩
    exact hstarted.of_eq hc.progression_eq hc.startedDepths_eq

theorem Starts.progressionInvariant (hnamed : search.IsNamed)
    (h : search.Starts xs ys cancelled deviates depth s) :
    search.ProgressionInvariant xs ys cancelled deviates (search.started depth s) := by
  obtain ⟨batches, hs⟩ := h.reaches
  exact (hs.progressionInvariant hnamed).started hnamed h

theorem Exits.progressionInvariant (hnamed : search.IsNamed)
    (h : search.Exits xs ys cancelled deviates r) :
    search.ProgressionInvariant xs ys cancelled deviates r.final := by
  cases h with
  | maxDepthReached hs => exact hs.progressionInvariant hnamed
  | cancelled hs => exact hs.progressionInvariant hnamed
  | earlyStopping hstarts => exact hstarts.progressionInvariant hnamed
  | emptySearchSpace hstarts => exact hstarts.progressionInvariant hnamed

omit [Model M] in
theorem StopsEarly.unique {improvement' threshold' : Float}
    (h : search.StopsEarly progression depth improvement threshold)
    (h' : search.StopsEarly progression depth improvement' threshold') :
    improvement = improvement' ∧ threshold = threshold' :=
  ⟨h.isAt.unique h'.isAt, Option.some.inj (h.threshold_eq.symm.trans h'.threshold_eq)⟩

theorem Exits.termination_eq_iff (hnamed : search.IsNamed)
    (h : search.Exits xs ys cancelled deviates r) :
    r.termination = .earlyStopping depth improvement threshold ↔
      search.StopsEarly r.final.progression depth improvement threshold ∧
        ∀ depth' < depth, ∀ improvement' threshold',
          ¬ search.StopsEarly r.final.progression depth' improvement' threshold' := by
  cases h with
  | maxDepthReached hs =>
    exact ⟨fun h ↦ (by cases h), fun h ↦ absurd h.1 (hs.not_stopsEarly hnamed)⟩
  | cancelled hs =>
    exact ⟨fun h ↦ (by cases h), fun h ↦ absurd h.1 (hs.not_stopsEarly hnamed)⟩
  | @earlyStopping last s _ _ hstarts hstops =>
    constructor
    · intro h
      cases h
      exact ⟨hstops, fun depth' hlt _ _ ↦ hstarts.not_stopsEarly hnamed hlt⟩
    · rintro ⟨h, -⟩
      obtain rfl := hstarts.eq_of_stopsEarly hnamed h
      obtain ⟨rfl, rfl⟩ := hstops.unique h
      rfl
  | @emptySearchSpace last s _ hstarts hgoesOn =>
    refine ⟨fun h ↦ (by cases h), fun h ↦ ?_⟩
    obtain rfl := hstarts.eq_of_stopsEarly hnamed h.1
    exact absurd h.1 (hgoesOn _ _)

/-- With improvements that are not negative, a threshold that is not positive stops nothing. -/
theorem ProgressionInvariant.not_stopsEarly
    (h : search.ProgressionInvariant xs ys cancelled deviates s) (hthreshold : threshold ≤ 0.0) :
    ¬ search.StopsEarly s.progression depth improvement threshold := by
  intro hstops
  have hone : 1 ≤ depth := Nat.le_of_succ_le hstops.two_le
  obtain ⟨x, y, hx, hy, hgain⟩ := hstops.isAt
  obtain ⟨hrelative, -, hzero, -⟩ := h.improvement depth x y hone hx hy
  obtain rfl := hgain.unique hrelative
  have hlt : Improvement.relative x y < 0.0 := FloatOrder.lt_of_lt_of_le hstops.lt hthreshold
  have hself := FloatOrder.lt_of_lt_of_le hlt hzero
  exact FloatOrder.not_lt_of_lt hself hself

/-- From depth to depth the best score only gets better, and the improvements are well defined. A
run stops early at the first depth with an improvement below the threshold. -/
theorem progression_falls {config : Config} {backend : Backend M} {metric : Metric M}
    (hcreate : create config backend metric = .ok search) (xs ys : List Float)
    (cancelled : ℕ → Bool) (deviates : ℕ → Deviates) :
    (∀ depth s, search.Starts xs ys cancelled deviates depth s →
      search.ProgressionInvariant xs ys cancelled deviates (search.started depth s)) ∧
    ∀ r, search.run xs ys cancelled deviates = .ok r →
      search.ProgressionInvariant xs ys cancelled deviates r.final ∧
      (∀ depth improvement threshold,
        r.termination = .earlyStopping depth improvement threshold ↔
          search.StopsEarly r.final.progression depth improvement threshold ∧
            ∀ depth' < depth, ∀ improvement' threshold',
              ¬ search.StopsEarly r.final.progression depth' improvement' threshold') ∧
      ((∀ threshold ∈ config.search.stoppingThreshold, threshold ≤ 0.0) →
        ∀ depth improvement threshold,
          r.termination ≠ .earlyStopping depth improvement threshold) := by
  obtain ⟨hnamed, hconfig⟩ := create_eq_ok hcreate
  rw [← hconfig]
  refine ⟨fun depth s hstarts ↦ hstarts.progressionInvariant hnamed, fun r hr ↦ ?_⟩
  have hexits := exits_of_run hnamed hr
  have hinvariant := hexits.progressionInvariant hnamed
  refine ⟨hinvariant, fun _ _ _ ↦ hexits.termination_eq_iff hnamed, ?_⟩
  intro hthreshold depth improvement threshold hreason
  obtain ⟨hstops, -⟩ := (hexits.termination_eq_iff hnamed).1 hreason
  exact hinvariant.not_stopsEarly (hthreshold threshold hstops.threshold_eq) hstops

theorem growingSearch_progression_falls :
    create contentConfig smallBackend sizeMetric = .ok growingSearch ∧
      ∃ r, growingSearch.run [0.0, 1.0] [0.0, 1.0] (fun _ ↦ false) (fun _ _ _ ↦ 0.0) = .ok r ∧
        r.final.progression = [Entry.infinity, 20.0, 15.0] ∧
        growingSearch.ProgressionInvariant [0.0, 1.0] [0.0, 1.0] (fun _ ↦ false)
          (fun _ _ _ ↦ 0.0) r.final ∧
        Improvement.relative Entry.infinity 20.0 = Entry.infinity ∧
        Improvement.relative 20.0 15.0 = 0.25 ∧
        growingSearch.StopsEarly r.final.progression 2 0.25 0.5 := by
  have hcreate := create_growingSearch
  obtain ⟨r, hr, hreason, hprogression⟩ := exists_run_growingSearch
  obtain ⟨-, hrun⟩ := progression_falls hcreate [0.0, 1.0] [0.0, 1.0] (fun _ ↦ false)
    fun _ _ _ ↦ 0.0
  obtain ⟨hinvariant, hearly, -⟩ := hrun r hr
  have hstops := ((hearly 2 0.25 0.5).1 hreason).1
  exact ⟨hcreate, r, hr, hprogression, hinvariant, by decide, by decide, hstops⟩

end CovarianceSearch.Search
