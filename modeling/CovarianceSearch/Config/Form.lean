import CovarianceSearch.Config.Basic
import CovarianceSearch.Document.Convention

namespace CovarianceSearch

def GrammarKind.name : GrammarKind → String
  | .tree => "duvenaud"
  | .text => "duvenaud_text"

def GrammarKind.ofName? (name : String) : Option GrammarKind :=
  [tree, text].find? (·.name == name)

def Criterion.ofName? (name : String) : Option Criterion :=
  [negativeLogLikelihood, bayesian, bayesianDuvenaud].find? (·.name == name)

def optionalReal (x : Option Float) : Datum := x.elim .null .real

namespace SearchConfig

def fieldNames : List String :=
  ["search_depth", "kernels_per_depth", "find_n_best", "full_initial_base_kernel_expansion",
    "early_stopping_min_rel_delta", "start_kernel"]

def toDatum (c : SearchConfig) : Datum :=
  .table (fieldNames.zip [.integer c.searchDepth, .integer c.kernelsPerDepth, .integer c.findBest,
    .bool c.fullInitialExpansion, optionalReal c.stoppingThreshold, .text c.startKernel])

/-- Missing fields are taken from the default. -/
def ofDatum? (v : Convention) (d : Datum) : Option SearchConfig := do
  let fields ← d.section? fieldNames v.surplus
  let c : SearchConfig := {}
  return {
    searchDepth := ← fields.defaulted? "search_depth" c.searchDepth v.natural?
    kernelsPerDepth := ← fields.defaulted? "kernels_per_depth" c.kernelsPerDepth v.natural?
    findBest := ← fields.defaulted? "find_n_best" c.findBest v.natural?
    fullInitialExpansion :=
      ← fields.defaulted? "full_initial_base_kernel_expansion" c.fullInitialExpansion v.bool?
    stoppingThreshold := ← fields.optional? "early_stopping_min_rel_delta" v.real?
    startKernel := ← fields.defaulted? "start_kernel" c.startKernel v.text? }

end SearchConfig

namespace GrammarConfig

def fieldNames : List String :=
  ["grammar", "base_kernels", "base_kernels_to_exclude", "lax_product_with_constant"]

def toDatum (c : GrammarConfig) : Datum :=
  .table (fieldNames.zip [.text c.kind.name, .list (c.baseKernels.map .text),
    .list (c.excluded.map .text), .bool c.laxConstant])

def ofDatum? (v : Convention) (d : Datum) : Option GrammarConfig := do
  let fields ← d.section? fieldNames v.surplus
  let c : GrammarConfig := {}
  return {
    kind := ← fields.defaulted? "grammar" c.kind (Datum.choice? GrammarKind.ofName? v.blank)
    baseKernels := ← fields.defaulted? "base_kernels" c.baseKernels (Datum.items? v.text?)
    excluded := ← fields.defaulted? "base_kernels_to_exclude" c.excluded (Datum.items? v.text?)
    laxConstant := ← fields.defaulted? "lax_product_with_constant" c.laxConstant v.bool? }

end GrammarConfig

namespace EvaluationConfig

def fieldNames : List String :=
  ["metric", "workers", "jitter", "jitter_mean", "jitter_sd", "shuffle", "seed",
    "max_optimizer_evaluations"]

def toDatum (c : EvaluationConfig) : Datum :=
  .table (fieldNames.zip [.text c.criterion.name, .integer c.workers, .bool c.jitter,
    .real c.jitterMean, .real c.jitterDeviation, .bool c.shuffle,
    c.seed.elim .null fun seed : Nat ↦ .integer seed, .integer c.maxEvaluations])

def ofDatum? (v : Convention) (d : Datum) : Option EvaluationConfig := do
  let fields ← d.section? fieldNames v.surplus
  let c : EvaluationConfig := {}
  return {
    criterion :=
      ← fields.defaulted? "metric" c.criterion (Datum.choice? Criterion.ofName? v.blank)
    workers := ← fields.defaulted? "workers" c.workers v.natural?
    jitter := ← fields.defaulted? "jitter" c.jitter v.bool?
    jitterMean := ← fields.defaulted? "jitter_mean" c.jitterMean v.real?
    jitterDeviation := ← fields.defaulted? "jitter_sd" c.jitterDeviation v.real?
    shuffle := ← fields.defaulted? "shuffle" c.shuffle v.bool?
    seed := ← fields.optional? "seed" v.natural?
    maxEvaluations :=
      ← fields.defaulted? "max_optimizer_evaluations" c.maxEvaluations v.natural? }

end EvaluationConfig

namespace PreprocessingConfig

def fieldNames : List String := ["rescale_x_to_upper_bound"]

def toDatum (c : PreprocessingConfig) : Datum :=
  .table (fieldNames.zip [optionalReal c.upperBound])

def ofDatum? (v : Convention) (d : Datum) : Option PreprocessingConfig := do
  let fields ← d.section? fieldNames v.surplus
  return { upperBound := ← fields.optional? "rescale_x_to_upper_bound" v.real? }

end PreprocessingConfig

namespace Config

def sectionNames : List String := ["search", "grammar", "evaluation", "preprocessing"]

def toDatum (c : Config) : Datum :=
  .table (sectionNames.zip [c.search.toDatum, c.grammar.toDatum, c.evaluation.toDatum,
    c.preprocessing.toDatum])

def ofDatum? (v : Convention) (d : Datum) : Option Config := do
  let fields ← d.section? sectionNames v.surplus
  let c : Config := {}
  return {
    search := ← fields.defaulted? "search" c.search (SearchConfig.ofDatum? v)
    grammar := ← fields.defaulted? "grammar" c.grammar (GrammarConfig.ofDatum? v)
    evaluation := ← fields.defaulted? "evaluation" c.evaluation (EvaluationConfig.ofDatum? v)
    preprocessing :=
      ← fields.defaulted? "preprocessing" c.preprocessing (PreprocessingConfig.ofDatum? v) }

end Config

end CovarianceSearch
