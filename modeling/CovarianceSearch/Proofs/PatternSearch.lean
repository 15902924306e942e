import CovarianceSearch.PatternSearch
import CovarianceSearch.Proofs.GaussianProcess

namespace CovarianceSearch.PatternSearch

section Loops

variable {M : Type} [Model M] {names : List String} {P : State M → Prop} {s : State M}
  {search : PatternSearch}

/-- What holds of a search is not changed by trying a point while the budget lasts. -/
def Preserves (search : PatternSearch) (names : List String) (P : State M → Prop) : Prop :=
  ∀ s point, P s → s.evaluations < search.maxEvaluations → point.length = s.point.length →
    P (tryPoint names s point).1

theorem Preserves.tryMove (hP : search.Preserves names P) (h : P s) (i : ℕ) (distance : Float) :
    P (search.tryMove names s i distance).1 := by
  unfold PatternSearch.tryMove
  split
  · exact h
  · next hbudget => exact hP s _ h (Nat.lt_of_not_le hbudget) (List.length_modify _ _ _)

theorem Preserves.explore (hP : search.Preserves names P) (h : P s) (step : Float) (i : ℕ) :
    P (search.explore names step s i).1 := by
  have hup := hP.tryMove h i (1.0 * step)
  unfold PatternSearch.explore
  split
  · next s' hs' =>
    rw [hs'] at hup
    exact hup
  · next s' hs' =>
    rw [hs'] at hup
    exact hP.tryMove hup i (-1.0 * step)

theorem Preserves.foldl_explore (hP : search.Preserves names P) (step : Float) (is : List ℕ)
    {p : State M × Bool} (hp : P p.1) :
    P (is.foldl (fun (s, moved) i ↦
      let (s', moved') := search.explore names step s i
      (s', moved || moved')) p).1 := by
  induction is generalizing p with
  | nil => exact hp
  | cons i is ih => exact ih (hP.explore hp step i)

theorem Preserves.sweep (hP : search.Preserves names P) (h : P s) (step : Float) :
    P (search.sweep names step s).1 :=
  hP.foldl_explore step _ h

theorem Preserves.sweeps (hP : search.Preserves names P) (bound : ℕ) (h : P s) (step : Float) :
    P (search.sweeps names bound step s) := by
  induction bound generalizing step s with
  | zero => exact h
  | succ bound ih =>
    rw [PatternSearch.sweeps]
    split
    · exact ih (hP.sweep h step) _
    · exact h

end Loops

/-- A search for the parameters of a model has a coordinate for each of their names, and changes
nothing but their values. -/
structure State.Follows (s : State GaussianProcess) (m : GaussianProcess) (names : List String) :
    Prop where
  alike : s.model.Alike m
  length : s.point.length = names.length

variable {m m' : GaussianProcess} {names : List String} {s : State GaussianProcess}
  {point : List Float}

theorem alike_of_place (h : place names m point = .ok m') : m'.Alike m :=
  GaussianProcess.alike_of_assign h

theorem names_ofList_zip (hlength : point.length = names.length) (name : String) :
    name ∈ (Assignment.ofList (names.zip (point.map Float.exp))).names ↔ name ∈ names := by
  have hle : names.length ≤ (point.map Float.exp).length := by
    simp [hlength]
  rw [Assignment.mem_names_ofList, List.map_fst_zip hle]

theorem isPlaced_of_place (h : place names m point = .ok m')
    (hlength : point.length = names.length)
    (hnames : ∀ name ∈ m.parameters.names, name ∈ names) : m'.IsPlaced := by
  apply GaussianProcess.isPlaced_of_assign h
  intro name hname
  exact (names_ofList_zip hlength name).2 (hnames name hname)

variable (search : PatternSearch)

theorem preserves_follows : search.Preserves names fun s ↦ s.Follows m names := by
  intro s point h _ hpoint
  have hlength := hpoint.trans h.length
  unfold tryPoint
  split
  · exact ⟨h.alike, h.length⟩
  · next m' hplace =>
    have halike : m'.Alike m := (alike_of_place hplace).trans h.alike
    dsimp only
    split
    · split
      · exact ⟨halike, hlength⟩
      · exact ⟨halike, h.length⟩
    · exact ⟨halike, h.length⟩

theorem length_start (m : GaussianProcess) :
    (m.parameters.values.map startLog).length = m.parameters.names.length := by
  rw [List.length_map, Assignment.values, Assignment.names, List.length_map, List.length_map]

theorem isPlaced_of_minimize {result : Result GaussianProcess} {loss : Float}
    (hresult : search.minimize m = result) (hloss : result.best = .ok loss) :
    result.model.Alike m ∧ result.model.IsPlaced := by
  unfold minimize at hresult
  dsimp only at hresult
  split at hresult
  · subst hresult
    cases hloss
  · next start hstart =>
    split at hresult
    · subst hresult
      cases hloss
    · next first hfirst =>
      have hstarts : (State.initial start (m.parameters.values.map startLog) first).Follows m
          m.parameters.names := ⟨alike_of_place hstart, length_start m⟩
      -- The sweeps leave the model wherever they tried last. It is the last placement that counts.
      have hfollows := (preserves_follows search).sweeps search.maxEvaluations hstarts
        search.initialStep
      split at hresult
      · subst hresult
        cases hloss
      · next final hfinal =>
        subst hresult
        have halike : final.Alike m := (alike_of_place hfinal).trans hfollows.alike
        refine ⟨halike, isPlaced_of_place hfinal hfollows.length ?_⟩
        intro name hname
        exact hfollows.alike.mem_names_iff.1 hname

theorem place_ne_missingTarget (names : List String) (m : GaussianProcess) (point : List Float) :
    place names m point ≠ .error .missingTarget :=
  GaussianProcess.assign_ne_missingTarget m _

theorem minimize_ne_missingTarget (h : m.HasTargets) :
    (search.minimize m).best ≠ .error .missingTarget := by
  unfold minimize
  dsimp only
  split
  · next e hplace =>
    intro hbest
    obtain rfl : e = .missingTarget := Except.error.inj hbest
    exact place_ne_missingTarget _ _ _ hplace
  · next start hstart =>
    split
    · next e hloss =>
      intro hbest
      have hstarts := (alike_of_place hstart).hasTargets h
      exact GaussianProcess.finiteLoss_ne_missingTarget hstarts (hloss.trans hbest)
    · split
      · next e hplace =>
        intro hbest
        obtain rfl : e = .missingTarget := Except.error.inj hbest
        exact place_ne_missingTarget _ _ _ hplace
      · intro hbest
        cases hbest

theorem exactBackend_optimize_eq_ok {maxEvaluations : ℕ}
    (h : (exactBackend maxEvaluations).optimize m = .ok m') : m'.Alike m ∧ m'.IsPlaced := by
  change (minimize { maxEvaluations } m).best.map _ = .ok m' at h
  cases hbest : (minimize { maxEvaluations } m).best with
  | error e =>
    rw [hbest] at h
    cases h
  | ok loss =>
    rw [hbest] at h
    cases h
    exact isPlaced_of_minimize _ rfl hbest

theorem exactBackend_optimize_ne_missingTarget (h : m.HasTargets) (maxEvaluations : ℕ) :
    (exactBackend maxEvaluations).optimize m ≠ .error .missingTarget := by
  intro hoptimize
  change (minimize { maxEvaluations } m).best.map _ = .error .missingTarget at hoptimize
  have hbest := minimize_ne_missingTarget { maxEvaluations } h
  cases hresult : (minimize { maxEvaluations } m).best with
  | error e =>
    rw [hresult] at hoptimize hbest
    cases hoptimize
    exact hbest rfl
  | ok loss =>
    rw [hresult] at hoptimize
    cases hoptimize

end CovarianceSearch.PatternSearch
