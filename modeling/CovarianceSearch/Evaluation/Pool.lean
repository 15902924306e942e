import CovarianceSearch.Evaluation
import CovarianceSearch.StableSort
import Mathlib.Logic.Relation

namespace CovarianceSearch

structure Job where
  index : Nat
  kernel : Kernel Float
  deviates : Nat → Float

structure Report where
  index : Nat
  score : Float
  params : Option Assignment

inductive Slot where
  | waiting (job : Job)
  | running (job : Job)
  | done (outcome : Except Error Report)

namespace Slot

def isRunning : Slot → Bool
  | .running _ => true
  | _ => false

def isDone : Slot → Bool
  | .done _ => true
  | _ => false

end Slot

/-- The jobs that a set of workers shares, and the kernels that models have been built of so far. -/
structure Pool where
  slots : List Slot
  built : List (Kernel Float)

def Pool.start (queue : List Job) : Pool := ⟨queue.map .waiting, []⟩

namespace Evaluator

def instantiate (trees : List KernelTree) : Except Error (List (Kernel Float)) :=
  trees.mapM fun t ↦ (Kernel.ofTree t).mapError .node

def jobs (trees : List KernelTree) (deviates : Deviates) : Except Error (List Job) := do
  return (← instantiate trees).zipIdx.map fun (k, i) ↦ ⟨i, k, deviates i⟩

def gather (trees : List KernelTree) (reports : List Report) : List Evaluation :=
  List.zipWith (fun r t ↦ ⟨t, r.score, r.params⟩)
    (StableSort.sort (fun r s ↦ r.index < s.index) reports) trees

variable {M : Type} [Model M] (ev : Evaluator M)

def work (xs ys : List Float) (job : Job) : Except Error Report :=
  match ev.fit xs ys job.kernel job.deviates with
  | .ok (score, params) => .ok ⟨job.index, score, some params⟩
  | .error (.fit _) => .ok ⟨job.index, Entry.infinity, none⟩
  | .error .missingTarget => .error .missingTarget

/-- Either a worker that is free takes up a job that waits, or a worker is done with its job. Which
one is next is open. -/
inductive Steps (workers : Nat) (xs ys : List Float) : Pool → Pool → Prop
  | start {before after : List Slot} {job : Job} {built : List (Kernel Float)} :
      (before ++ after).countP Slot.isRunning < workers →
      Steps workers xs ys ⟨before ++ .waiting job :: after, built⟩
        ⟨before ++ .running job :: after, built ++ [job.kernel]⟩
  | finish {before after : List Slot} {job : Job} {built : List (Kernel Float)} :
      Steps workers xs ys ⟨before ++ .running job :: after, built⟩
        ⟨before ++ .done (ev.work xs ys job) :: after, built⟩

/-- How a batch may go on a number of workers: the kernels that models are built of, and the
result. The jobs are queued in any order, and one that ends without a report may end the batch. -/
inductive Executes (workers : Nat) (xs ys : List Float) (trees : List KernelTree)
    (deviates : Deviates) : List (Kernel Float) → Except Error (List Evaluation) → Prop
  | refused {e : Error} :
      jobs trees deviates = .error e → Executes workers xs ys trees deviates [] (.error e)
  | completed {batch queue : List Job} {reports : List Report} {built : List (Kernel Float)} :
      jobs trees deviates = .ok batch → queue.Perm batch →
      Relation.ReflTransGen (ev.Steps workers xs ys) (.start queue)
        ⟨reports.map fun r ↦ .done (.ok r), built⟩ →
      Executes workers xs ys trees deviates built (.ok (gather trees reports))
  | aborted {batch queue : List Job} {pool : Pool} {e : Error} :
      jobs trees deviates = .ok batch → queue.Perm batch →
      Relation.ReflTransGen (ev.Steps workers xs ys) (.start queue) pool →
      .done (.error e) ∈ pool.slots →
      Executes workers xs ys trees deviates pool.built (.error e)

end Evaluator

end CovarianceSearch
