import CovarianceSearch.Criterion
import CovarianceSearch.Evaluation

namespace CovarianceSearch

structure SearchConfig where
  /-- The number of expansions. Without any the starting kernel is all that is found. -/
  searchDepth : Nat := 10
  kernelsPerDepth : Nat := 1
  findBest : Nat := 1
  /-- Whether the first expansion is also one of every active base kernel. -/
  fullInitialExpansion : Bool := false
  /-- The improvement between two depths below which a search stops. -/
  stoppingThreshold : Option Float := none
  startKernel : String := "white"

structure GrammarConfig where
  kind : GrammarKind := .tree
  baseKernels : List String := BaseKernel.defaultPalette.map (·.name)
  excluded : List String := []
  laxConstant : Bool := true

structure EvaluationConfig where
  criterion : Criterion := .bayesian
  workers : Nat := 1
  jitter : Bool := true
  jitterMean : Float := 0.0
  jitterDeviation : Float := 0.1
  shuffle : Bool := false
  seed : Option Nat := none
  maxEvaluations : Nat := 200

structure PreprocessingConfig where
  /-- Where the greatest input is moved to. -/
  upperBound : Option Float := none

structure Config where
  search : SearchConfig := {}
  grammar : GrammarConfig := {}
  evaluation : EvaluationConfig := {}
  preprocessing : PreprocessingConfig := {}

def SearchConfig.validate (c : SearchConfig) : Except ConfigFault Unit := do
  if c.kernelsPerDepth = 0 then throw .noKernelsPerDepth
  if c.findBest = 0 then throw .nothingToFind
  if c.stoppingThreshold.any (!·.isFinite) then throw .thresholdNotFinite

def GrammarConfig.validate (c : GrammarConfig) : Except ConfigFault Unit := do
  let _ ← BaseKernel.resolve c.baseKernels
  let _ ← BaseKernel.resolve c.excluded
  if c.baseKernels.all (c.excluded.contains ·) then throw .everythingExcluded

def EvaluationConfig.validate (c : EvaluationConfig) : Except ConfigFault Unit := do
  if c.workers = 0 then throw .noWorkers
  if !c.jitterMean.isFinite || !c.jitterDeviation.isFinite || c.jitterDeviation < 0.0 then
    throw .jitterOutOfRange
  if c.maxEvaluations = 0 then throw .noEvaluations

def PreprocessingConfig.validate (c : PreprocessingConfig) : Except BoundFault Unit :=
  match c.upperBound with
  | some bound => if bound.isFinite && 0.0 < bound then .ok () else .error (.upperBound bound)
  | none => .ok ()

def Config.validate (c : Config) : Except Error Unit := do
  c.search.validate.mapError .config
  c.grammar.validate.mapError .config
  c.evaluation.validate.mapError .config
  c.preprocessing.validate.mapError .bound

def GrammarConfig.palette (c : GrammarConfig) : Except ConfigFault Palette := do
  return ⟨← BaseKernel.resolve c.baseKernels, ← BaseKernel.resolve c.excluded, c.laxConstant⟩

def GrammarConfig.grammar (c : GrammarConfig) : Except ConfigFault Grammar := do
  return ⟨c.kind, ← c.palette⟩

def EvaluationConfig.spread (c : EvaluationConfig) : Option Jitter :=
  if c.jitter then some ⟨c.jitterMean, c.jitterDeviation⟩ else none

end CovarianceSearch
