import CovarianceSearch.Assignment
import CovarianceSearch.Kernel

namespace CovarianceSearch

inductive FitError where
  | emptyData
  | notPositiveDefinite
  | nonFinite
  | unknownParameter (name : String)
  deriving DecidableEq

def FitError.message : FitError → String
  | .emptyData => "no data to condition on"
  | .notPositiveDefinite => "covariance is not positive definite"
  | .nonFinite => "non-finite likelihood or score"
  | .unknownParameter name => s!"unknown parameter `{name}`"

/-- How a computation on a model can end without an answer: in a failed fit, which a search
survives, or at an input that no target belongs to, which it does not. -/
inductive Fault where
  | fit (e : FitError)
  | missingTarget
  deriving DecidableEq

class Model (M : Type) where
  logLikelihood : M → Except Fault Float
  parameters : M → Assignment
  assign : M → Assignment → Except Fault M
  kernel : M → Kernel Float
  inputs : M → List Float
  targets : M → List Float
  dataSize : M → Nat

namespace Model

variable {M : Type} [Model M]

def parameterCount (m : M) : Nat := (parameters m).size

def finiteLoss (answer : Except Fault Float) : Except Fault Float := do
  let loss := -(← answer)
  if loss.isFinite then return loss else throw (.fit .nonFinite)

def jitter (m : M) (shift : Nat → Float) : Except Fault M :=
  assign m (.ofList ((parameters m).entries.zipIdx.map fun ((name, v), i) ↦ (name, v + shift i)))

end Model

structure Backend (M : Type) where
  build : List Float → List Float → Kernel Float → Except Fault M
  optimize : M → Except Fault M

/-- A measure of models. Lower scores are better. -/
structure Metric (M : Type) where
  name : String
  score : M → Except Fault Float

end CovarianceSearch
