import CovarianceSearch.GaussianProcess

namespace CovarianceSearch

/-- Search for the most likely parameters of a model, which moves one logarithm at a time by a step
and halves the step when no move helps. -/
structure PatternSearch where
  maxEvaluations : Nat
  initialStep : Float := 1.0
  minStep : Float := 0.001

namespace PatternSearch

variable {M : Type} [Model M]

def greatestLog : Float := 13.8

def leastLog : Float := GaussianProcess.leastParameter.log

def startLog (v : Float) : Float :=
  let l := (GaussianProcess.floored v).log
  if greatestLog < l then greatestLog else l

structure Trial where
  point : List Float
  answer : Except Fault Float

def Trial.of (point : List Float) (m : M) : Trial := ⟨point, Model.logLikelihood m⟩

/-- A search under way. The model is at the point tried last. -/
structure State (M : Type) where
  model : M
  point : List Float
  best : Float
  trials : List Trial

def State.evaluations (s : State M) : Nat := s.trials.length

def State.initial (start : M) (point : List Float) (loss : Float) : State M :=
  ⟨start, point, loss, [.of point start]⟩

structure Result (M : Type) where
  model : M
  best : Except Fault Float
  trials : List Trial

def Result.likelihoods (r : Result M) : List (Except Fault Float) := r.trials.map (·.answer)

def place (names : List String) (m : M) (point : List Float) : Except Fault M :=
  Model.assign m (.ofList (names.zip (point.map Float.exp)))

def tryPoint (names : List String) (s : State M) (point : List Float) : State M × Bool :=
  match place names s.model point with
  | .error e => ({ s with trials := s.trials ++ [⟨point, .error e⟩] }, false)
  | .ok m =>
    let trials := s.trials ++ [.of point m]
    match Model.finiteLoss (Model.logLikelihood m) with
    | .ok loss =>
      if loss < s.best then (⟨m, point, loss, trials⟩, true)
      else (⟨m, s.point, s.best, trials⟩, false)
    | .error _ => (⟨m, s.point, s.best, trials⟩, false)

variable (search : PatternSearch)

def tryMove (names : List String) (s : State M) (i : Nat) (distance : Float) : State M × Bool :=
  if search.maxEvaluations ≤ s.evaluations then (s, false)
  else tryPoint names s
    (s.point.modify i fun l ↦ Scalar.clamp leastLog greatestLog (l + distance))

def explore (names : List String) (step : Float) (s : State M) (i : Nat) : State M × Bool :=
  match search.tryMove names s i (1.0 * step) with
  | (s', true) => (s', true)
  | (s', false) => search.tryMove names s' i (-1.0 * step)

def sweep (names : List String) (step : Float) (s : State M) : State M × Bool :=
  (List.range s.point.length).foldl
    (fun (s, moved) i ↦
      let (s', moved') := search.explore names step s i
      (s', moved || moved'))
    (s, false)

def sweeps (names : List String) : (bound : Nat) → (step : Float) → State M → State M
  | 0, _, s => s
  | bound + 1, step, s =>
    if search.minStep ≤ step ∧ s.evaluations < search.maxEvaluations then
      let (s', moved) := search.sweep names step s
      sweeps names bound (if moved then step else step * 0.5) s'
    else s

/-- Fits a model. Every sweep uses up a part of the budget, so the budget bounds their number. -/
def minimize (m : M) : Result M :=
  let names := (Model.parameters m).names
  let point := (Model.parameters m).values.map startLog
  match place names m point with
  | .error e => ⟨m, .error e, []⟩
  | .ok start =>
    match Model.finiteLoss (Model.logLikelihood start) with
    | .error e => ⟨start, .error e, [.of point start]⟩
    | .ok loss =>
      let s := search.sweeps names search.maxEvaluations search.initialStep
        (.initial start point loss)
      match place names s.model s.point with
      | .error e => ⟨s.model, .error e, s.trials⟩
      | .ok final => ⟨final, .ok s.best, s.trials⟩

def exactBackend (maxEvaluations : Nat) : Backend GaussianProcess where
  build := GaussianProcess.build
  optimize m :=
    let result := ({ maxEvaluations } : PatternSearch).minimize m
    result.best.map fun _ ↦ result.model

end PatternSearch

end CovarianceSearch
