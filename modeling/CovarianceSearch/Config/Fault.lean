import CovarianceSearch.BaseKernel

namespace CovarianceSearch

inductive ConfigFault where
  | unknownKernel (name : String)
  | noKernelsPerDepth
  | nothingToFind
  | thresholdNotFinite
  | everythingExcluded
  | noWorkers
  | jitterOutOfRange
  | noEvaluations
  | jitterDistribution
  | unreadable
  | unparsable
  | unserializable
  | unwritable
  deriving DecidableEq

def ConfigFault.message : ConfigFault → String
  | .unknownKernel name => "Unknown base kernel: " ++ name
  | .noKernelsPerDepth => "kernels_per_depth must be at least 1"
  | .nothingToFind => "find_n_best must be at least 1"
  | .thresholdNotFinite => "early_stopping_min_rel_delta must be finite"
  | .everythingExcluded => "Every base kernel is excluded"
  | .noWorkers => "workers must be at least 1"
  | .jitterOutOfRange => "Jitter mean must be finite and jitter sd finite and non-negative"
  | .noEvaluations => "max_optimizer_evaluations must be at least 1"
  | .jitterDistribution => "Invalid jitter distribution"
  | .unreadable => "Failed to read config"
  | .unparsable => "Failed to parse config"
  | .unserializable => "Failed to serialize"
  | .unwritable => "Failed to write config"

namespace BaseKernel

def require (name : String) : Except ConfigFault BaseKernel :=
  match ofName? name with
  | some k => .ok k
  | none => .error (.unknownKernel name)

def resolve (names : List String) : Except ConfigFault (List BaseKernel) := names.mapM require

end BaseKernel

end CovarianceSearch
