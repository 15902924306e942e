import CovarianceSearch.Model

namespace CovarianceSearch

/-- The standard measures: the loss itself, or twice the loss and a penalty for every parameter. -/
inductive Criterion where
  | negativeLogLikelihood
  | bayesian
  | bayesianDuvenaud
  deriving DecidableEq

namespace Criterion

def name : Criterion → String
  | .negativeLogLikelihood => "negative_log_likelihood"
  | .bayesian => "bayesian_information_criterion"
  | .bayesianDuvenaud => "bayesian_information_criterion_duvenaud"

variable {M : Type} [Model M]

/-- The parameters that are penalised. The Duvenaud criterion leaves out the variance of the noise
and counts one variance for each product. -/
def penalised (c : Criterion) (m : M) : Nat :=
  match c with
  | .negativeLogLikelihood => 0
  | .bayesian => Model.parameterCount m
  | .bayesianDuvenaud => Model.parameterCount m - 1 - (Model.kernel m).redundantVariances

def value (c : Criterion) (m : M) (loss : Float) : Float :=
  match c with
  | .negativeLogLikelihood => loss
  | .bayesian | .bayesianDuvenaud =>
    2.0 * loss + Float.ofNat (c.penalised m) * (Float.ofNat (Model.dataSize m)).log

def score (c : Criterion) (m : M) : Except Fault Float := do
  let loss := -(← Model.logLikelihood m)
  let score := c.value m loss
  if score.isFinite then return score else throw (.fit .nonFinite)

def metric (c : Criterion) : Metric M := ⟨c.name, c.score⟩

end Criterion

end CovarianceSearch
