import CovarianceSearch.Decimal.Text
import CovarianceSearch.Text

namespace CovarianceSearch

inductive Event where
  | started (depth : Nat) (frontier : List String)
  | evaluated (key : String) (score : Float) (current total : Nat)
  | completed (depth : Nat) (bestScore : Float) (explored : Nat)

namespace Event

/-- The line that a log has for an event. Of the evaluations every tenth and the last are logged. -/
def logLine? : Event → Option String
  | .started depth frontier =>
    some s!"Depth {depth} starting, expanding {Text.quotedList frontier}"
  | .evaluated key score current total =>
    if current % 10 = 0 ∨ current = total then
      some s!"  Evaluated {current}/{total} kernels (last: {key} = {Decimal.fixed 3 score})"
    else none
  | .completed depth bestScore explored =>
    let score := Decimal.fixed 4 bestScore
    some s!"Depth {depth} complete. Best score: {score}, kernels explored: {explored}"

end Event

/-- Why a search ended. The last depth is `-1` where no depth was asked for. -/
inductive Termination where
  | maxDepthReached (depth : Int)
  | emptySearchSpace (depth : Nat)
  | earlyStopping (depth : Nat) (improvement threshold : Float)
  | cancelled (depth : Nat)

def percent (x : Float) : String := Decimal.fixed 2 (x * 100.0) ++ "%"

def Termination.message : Termination → String
  | .maxDepthReached depth => s!"maximum search depth reached at depth {depth}"
  | .emptySearchSpace depth => s!"empty search space, no new kernels found at depth {depth}"
  | .earlyStopping depth improvement threshold =>
    s!"early stopping at depth {depth}, improvement {percent improvement} below threshold " ++
      percent threshold
  | .cancelled depth => s!"search cancelled before depth {depth}"

end CovarianceSearch
