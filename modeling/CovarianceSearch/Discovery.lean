import CovarianceSearch.PatternSearch
import CovarianceSearch.Search

namespace CovarianceSearch

structure Discovery where
  /-- The best entries, from the best one on. -/
  kernels : List Entry
  progression : List Float
  termination : Termination
  /-- The number of structures that were seen. -/
  explored : Nat
  startedAt : String
  finishedAt : String

namespace Discovery

def best? (d : Discovery) : Option Entry := d.kernels.head?

def find? (d : Discovery) (key : String) : Option Entry := d.kernels.find? (·.key = key)

def keys (d : Discovery) : List String := d.kernels.map (·.key)

def ofRun (findBest : Nat) (startedAt finishedAt : String) (r : Search.Run) : Discovery :=
  ⟨r.final.table.best findBest, r.final.progression, r.termination, r.final.table.size, startedAt,
    finishedAt⟩

end Discovery

namespace Series

/-- Standardizes the targets and moves the inputs below the bound, if there is one. -/
def preprocess (xs ys : List Float) (bound : Option Float) :
    Except Error (List Float × List Float) := do
  if xs.length ≠ ys.length then throw (.shapeMismatch xs.length ys.length)
  let xs ← match bound with
    | some bound => (rescale xs bound).mapError .bound
    | none => pure xs
  return (xs, if ys.isEmpty then ys else standardize ys)

end Series

variable {M : Type} [Model M]

def discoverWith (backend : Backend M) (config : Config) (xs ys : List Float)
    (deviates : Nat → Deviates) : Except Error Search.Run := do
  config.validate
  let (xs, ys) ← Series.preprocess xs ys config.preprocessing.upperBound
  let search ← Search.create config backend config.evaluation.criterion.metric
  search.run xs ys (fun _ ↦ false) deviates

def discover (config : Config) (xs ys : List Float) (deviates : Nat → Deviates) :
    Except Error Search.Run :=
  discoverWith (PatternSearch.exactBackend config.evaluation.maxEvaluations) config xs ys deviates

end CovarianceSearch
