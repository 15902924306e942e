import CovarianceSearch.Likelihood

namespace CovarianceSearch

/-- Exact regression on data with normally distributed noise. -/
structure GaussianProcess where
  inputs : List Float
  targets : List Float
  kernel : Kernel Float
  noise : Float

namespace GaussianProcess

def noisePath : String := "likelihood/variance"

def leastParameter : Float := 1e-6

def floored (v : Float) : Float := if leastParameter < v then v else leastParameter

def build (xs ys : List Float) (k : Kernel Float) : Except Fault GaussianProcess :=
  if xs.isEmpty || ys.isEmpty then .error (.fit .emptyData) else .ok ⟨xs, ys, k, 1.0⟩

def negativeLogLikelihood (m : GaussianProcess) : Except Fault Float :=
  Likelihood.negativeLogLikelihood m.kernel m.noise m.inputs m.targets

def parameters (m : GaussianProcess) : Assignment :=
  (Assignment.ofList m.kernel.parameters).insert noisePath m.noise

/-- Overwrites the named parameters, or none of them if one is unknown. -/
def assign (m : GaussianProcess) (values : Assignment) : Except Fault GaussianProcess :=
  match values.names.find? (· ∉ m.parameters.names) with
  | some name => .error (.fit (.unknownParameter name))
  | none =>
    let change (path : String) (v : Float) := (values.get? path).elim v floored
    .ok { m with kernel := m.kernel.mapParameters change, noise := change noisePath m.noise }

instance : Model GaussianProcess where
  logLikelihood m := (- ·) <$> m.negativeLogLikelihood
  parameters := parameters
  assign := assign
  kernel := kernel
  inputs := inputs
  targets := targets
  dataSize m := m.inputs.length

end GaussianProcess

end CovarianceSearch
