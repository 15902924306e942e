import CovarianceSearch.Proofs.FloatSign
import CovarianceSearch.Proofs.PatternSearch

namespace CovarianceSearch.PatternSearch

section Loops

variable {M : Type} [Model M] {names : List String} {s s' : State M} {search : PatternSearch}
  {step : Float}

/-- Sweeps without a bound on their number end in a state when the step or the budget is used
up. -/
inductive Ends (search : PatternSearch) (names : List String) : Float → State M → State M → Prop
  | stop {step : Float} {s : State M} :
      ¬ (search.minStep ≤ step ∧ s.evaluations < search.maxEvaluations) → Ends search names step s s
  | next {step : Float} {s s' : State M} :
      search.minStep ≤ step ∧ s.evaluations < search.maxEvaluations →
      Ends search names (if (search.sweep names step s).2 then step else step * 0.5)
        (search.sweep names step s).1 s' →
      Ends search names step s s'

end Loops

variable {m m' : GaussianProcess} {s : State GaussianProcess} {point : List Float}
  {search : PatternSearch} {first t : Trial} {loss : Float}

/-- Where a point takes a model does not depend on the values that its parameters have. -/
theorem exists_place (hlength : point.length = m.parameters.names.length) :
    ∃ m', ∀ m'' : GaussianProcess, m''.Alike m →
      place m.parameters.names m'' point = .ok m' := by
  let values := Assignment.ofList (m.parameters.names.zip (point.map Float.exp))
  refine ⟨m.withParameters fun path ↦ GaussianProcess.floored ((values.get? path).getD 0), ?_⟩
  intro m'' halike
  rw [← halike]
  apply GaussianProcess.assign_eq_withParameters
  intro name
  exact (names_ofList_zip hlength name).trans halike.mem_names_iff.symm

def startPoint (m : GaussianProcess) : List Float := m.parameters.values.map startLog

theorem minimize_of_error (search : PatternSearch) {e : Fault}
    (hplace : place m.parameters.names m (startPoint m) = .ok m')
    (hloss : m'.negativeLogLikelihood = .error e) :
    search.minimize m = ⟨m', .error e, [.of (startPoint m) m']⟩ := by
  have hplaced : place (Model.parameters m).names m ((Model.parameters m).values.map startLog) =
      .ok m' := hplace
  have hanswer := (GaussianProcess.finiteLoss_logLikelihood m').trans hloss
  simp only [minimize, hplaced, hanswer]
  rfl

/-- A line through an observation at no number at all. -/
def lostLine : GaussianProcess :=
  ⟨[0.0 / 0.0, 1.0, 2.0], [0.5, 1.0, 0.0], .leaf (.standard .linear), 1.0⟩

theorem negativeLogLikelihood_lostLine (change : String → Float → Float) :
    (lostLine.changed change).negativeLogLikelihood = .error (.fit .notPositiveDefinite) := by
  obtain ⟨v, noise, hkernel, hnoise⟩ : ∃ v noise,
      (lostLine.changed change).kernel = .leaf ⟨.linear, [v]⟩ ∧
        (lostLine.changed change).noise = noise := ⟨_, _, rfl, rfl⟩
  have hfactor : Likelihood.cholesky? (Likelihood.covarianceMatrix (.leaf ⟨.linear, [v]⟩) noise
      [0.0 / 0.0, 1.0, 2.0]) = none := by
    apply Likelihood.cholesky?_of_not_isFinite (n := 2)
    have hnan := FloatSign.isNaN_add (FloatSign.isNaN_mul (v * (0.0 / 0.0)) (y := 0.0 / 0.0)
      (by decide)) noise
    have hnot : ¬ (v * (0.0 / 0.0) * (0.0 / 0.0) + noise).isFinite = true := fun hfinite ↦ by
      rw [FloatOrder.isNaN_of_isFinite hfinite] at hnan
      cases hnan
    exact Bool.eq_false_iff.2 hnot
  have hloss : Likelihood.lossOf (Likelihood.covarianceMatrix (.leaf ⟨.linear, [v]⟩) noise
      [0.0 / 0.0, 1.0, 2.0]) [0.5, 1.0, 0.0] = .error (.fit .notPositiveDefinite) := by
    rw [Likelihood.lossOf, hfactor]
  rw [GaussianProcess.negativeLogLikelihood, hkernel, hnoise]
  exact (if_neg Bool.false_ne_true).trans hloss

end CovarianceSearch.PatternSearch
