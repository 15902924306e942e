import CovarianceSearch.Evaluation
import CovarianceSearch.GaussianProcess

namespace CovarianceSearch.Ranking

variable {M : Type} [Model M]

/-- How much the score moves when a summand is left out. -/
structure Impact where
  component : String
  impact : Float

def without (summands : List (Kernel Float)) (i : Nat) : Kernel Float :=
  match summands.eraseIdx i with
  | [k] => k
  | ks => .node .sum ks

/-- The score of a model of the same data with another kernel and the same noise. -/
def scoreWith (backend : Backend M) (metric : Metric M) (m : M) (k : Kernel Float) :
    Except Fault Float := do
  let reduced ← backend.build (Model.inputs m) (Model.targets m) k
  match (Model.parameters m).get? GaussianProcess.noisePath with
  | some noise =>
    metric.score (← Model.assign reduced (Assignment.empty.insert GaussianProcess.noisePath noise))
  | none => metric.score reduced

def scoreOrInfinity : Except Fault Float → Except Error Float
  | .ok score => .ok score
  | .error (.fit _) => .ok Entry.infinity
  | .error .missingTarget => .error .missingTarget

def nameOf (k : Kernel Float) : Except Error String := k.toTree.text.mapError .node

def rank (backend : Backend M) (metric : Metric M) (m : M) (modelScore : Float) :
    Except Error (List Impact) :=
  match Model.kernel m with
  | .node .sum (k₁ :: k₂ :: ks) => do
    let summands := k₁ :: k₂ :: ks
    let impacts ← summands.zipIdx.mapM fun (k, i) ↦ do
      let score ← scoreOrInfinity (scoreWith backend metric m (without summands i))
      return ⟨← nameOf k, (modelScore - score).abs⟩
    return StableSort.sort (fun a b : Impact ↦ b.impact < a.impact) impacts
  | k => do throw (.notDecomposable (← nameOf k))

end CovarianceSearch.Ranking
