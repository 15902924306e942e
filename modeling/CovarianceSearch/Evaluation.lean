import CovarianceSearch.Error

namespace CovarianceSearch

/-- The outcome for one structure: a finite score with the fitted parameters, or an infinite one
without. -/
structure Evaluation where
  tree : KernelTree
  score : Float
  params : Option Assignment

structure Jitter where
  mean : Float
  deviation : Float

/-- A standard normal deviate for every candidate of a batch and each of its parameters. -/
abbrev Deviates := Nat → Nat → Float

structure Evaluator (M : Type) where
  backend : Backend M
  metric : Metric M
  jitter : Option Jitter

namespace Evaluator

variable {M : Type} [Model M] (ev : Evaluator M)

/-- Starting points cannot be spread without a finite deviation. -/
def create (backend : Backend M) (metric : Metric M) (jitter : Option Jitter) :
    Except ConfigFault (Evaluator M) :=
  if jitter.all (·.deviation.isFinite) then .ok ⟨backend, metric, jitter⟩
  else .error .jitterDistribution

def spread (m : M) (deviates : Nat → Float) : Except Fault M :=
  match ev.jitter with
  | none => .ok m
  | some j => Model.jitter m fun i ↦ j.mean + j.deviation * deviates i

def fit (xs ys : List Float) (k : Kernel Float) (deviates : Nat → Float) :
    Except Fault (Float × Assignment) := do
  let m ← ev.backend.build xs ys k
  let m ← ev.spread m deviates
  let m ← ev.backend.optimize m
  let score ← ev.metric.score m
  if score.isFinite then return (score, Model.parameters m) else throw (.fit .nonFinite)

/-- Turns a failed fit into the worst score. -/
def settle (tree : KernelTree) : Except Fault (Float × Assignment) → Except Error Evaluation
  | .ok (score, params) => .ok ⟨tree, score, some params⟩
  | .error (.fit _) => .ok ⟨tree, Entry.infinity, none⟩
  | .error .missingTarget => .error .missingTarget

/-- Fits and scores every structure on its own, after all of them have been checked. -/
def evaluate (xs ys : List Float) (trees : List KernelTree) (deviates : Deviates) :
    Except Error (List Evaluation) := do
  let kernels ← trees.mapM fun t ↦ (Kernel.ofTree t).mapError .node
  (trees.zip kernels).zipIdx.mapM fun ((t, k), i) ↦ settle t (ev.fit xs ys k (deviates i))

end Evaluator

end CovarianceSearch
