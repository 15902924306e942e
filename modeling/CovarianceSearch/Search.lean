import CovarianceSearch.Config.Basic
import CovarianceSearch.KernelTree.Simplify
import CovarianceSearch.Search.Report
import CovarianceSearch.Table

namespace CovarianceSearch

namespace Improvement

/-- The change from one best score to the next, relative to the worse of the two. Improvements are
positive. -/
def relative (previous current : Float) : Float :=
  if previous == current then 0.0
  else if previous.isInf && current.isFinite then 1.0 / 0.0
  else if current.isInf && previous.isFinite then -1.0 / 0.0
  else if current ≤ previous then (previous - current).abs / previous.abs
  else -(previous - current).abs / current.abs

def below? (threshold : Float) (progression : List Float) : Option Float :=
  match progression.reverse with
  | current :: previous :: _ =>
    let improvement := relative previous current
    if improvement < threshold then some improvement else none
  | _ => none

end Improvement

/-- A greedy search over kernel structures, which expands the best entries of its table at every
depth. -/
structure Search (M : Type) where
  config : SearchConfig
  grammar : Grammar
  evaluator : Evaluator M
  start : BaseKernel

namespace Search

/-- A search between two depths. The progression holds the best score at the start of every depth
so far. -/
structure State where
  table : Table
  progression : List Float
  events : List Event

inductive Step where
  | next (s : State)
  | done (s : State) (reason : Termination)

structure Run where
  final : State
  termination : Termination

/-- The entries for the candidates whose keys are neither in the table nor among `seen`, the first
candidate counting for every key. -/
def freshEntries (depth : Nat) (table : Table) (seen : List String) :
    List Candidate → Except NodeFault (List Entry)
  | [] => return []
  | c :: cs => do
    let tree := c.tree.simplify
    let key ← tree.text
    if table.contains key || key ∈ seen then freshEntries depth table seen cs
    else
      let entry := { Entry.unscored key tree depth with expression := c.expression }
      return entry :: (← freshEntries depth table (key :: seen) cs)

def recordOne (total : Nat) (s : State) (result : (Entry × Evaluation) × Nat) : State :=
  let ((entry, evaluation), i) := result
  { s with
    table := (s.table.record entry.key evaluation.score evaluation.params).1
    events := s.events ++ [.evaluated entry.key evaluation.score (i + 1) total] }

variable {M : Type} [Model M] (search : Search M)

def create (config : Config) (backend : Backend M) (metric : Metric M) :
    Except Error (Search M) := do
  config.validate
  let start ← (BaseKernel.require config.search.startKernel).mapError .config
  let grammar ← config.grammar.grammar.mapError .config
  let evaluator ← (Evaluator.create backend metric config.evaluation.spread).mapError .config
  return ⟨config.search, grammar, evaluator, start⟩

def initial : Except Error State := do
  let seed := search.grammar.seed search.start
  let key ← seed.tree.text.mapError .node
  let entry := { Entry.unscored key seed.tree 0 with expression := seed.expression }
  return ⟨(Table.empty.insert entry).1, [], []⟩

def stop? (depth : Nat) (progression : List Float) : Option Termination := do
  let threshold ← search.config.stoppingThreshold
  if depth < 2 then none
  else return .earlyStopping depth (← Improvement.below? threshold progression) threshold

def candidates (depth : Nat) (frontier : List Entry) : Except GrammarFault (List Candidate) := do
  let steps ← frontier.mapM search.grammar.expand
  let extra ←
    if depth = 0 && search.config.fullInitialExpansion then search.grammar.expandBaseKernels
    else pure []
  return steps.flatten ++ extra

def evaluateFresh (xs ys : List Float) (deviates : Deviates) (depth : Nat) (s : State)
    (fresh : List Entry) : Except Error State := do
  let entered := { s with table := s.table.insertAll fresh }
  let evaluations ← search.evaluator.evaluate xs ys (fresh.map (·.tree)) deviates
  let scored := (fresh.zip evaluations).zipIdx.foldl (recordOne evaluations.length) entered
  let completed := Event.completed depth scored.table.bestScore scored.table.size
  return { scored with events := scored.events ++ [completed] }

def step (xs ys : List Float) (deviates : Deviates) (depth : Nat) (s : State) :
    Except Error Step := do
  let frontier := s.table.best search.config.kernelsPerDepth
  let s := { s with
    progression := s.progression ++ [s.table.bestScore]
    events := s.events ++ [.started depth (frontier.map (·.key))] }
  match search.stop? depth s.progression with
  | some reason => return .done s reason
  | none =>
    let candidates ← (search.candidates depth frontier).mapError .grammar
    match ← (freshEntries depth s.table [] candidates).mapError .node with
    | [] => return .done s (.emptySearchSpace depth)
    | fresh => return .next (← search.evaluateFresh xs ys deviates depth s fresh)

def runFrom (xs ys : List Float) (cancelled : Nat → Bool) (deviates : Nat → Deviates) :
    (remaining depth : Nat) → State → Except Error Run
  | 0, depth, s => return ⟨s, .maxDepthReached ((depth : Int) - 1)⟩
  | remaining + 1, depth, s =>
    if cancelled depth then return ⟨s, .cancelled depth⟩
    else do
      match ← search.step xs ys (deviates depth) depth s with
      | .done s reason => return ⟨s, reason⟩
      | .next s => runFrom xs ys cancelled deviates remaining (depth + 1) s

/-- The last of `n` depths, in a word with a sign. -/
def lastDepth (n : Nat) : Except Error Int :=
  let depth := (Int64.ofNat n).toInt
  if depth = Int64.minValue.toInt then .error .overflow else .ok (depth - 1)

def run (xs ys : List Float) (cancelled : Nat → Bool) (deviates : Nat → Deviates) :
    Except Error Run := do
  let depths := search.config.searchDepth
  let r ← search.runFrom xs ys cancelled deviates depths 0 (← search.initial)
  let _ ← lastDepth depths
  return r

end Search

end CovarianceSearch
