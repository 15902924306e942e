import CovarianceSearch.Evaluation.Pool
import Mathlib.Algebra.Ring.Nat
import Mathlib.Data.Multiset.Basic

namespace CovarianceSearch

open Relation (ReflTransGen)

def Slot.remaining : Slot → Nat
  | .waiting _ => 2
  | .running _ => 1
  | .done _ => 0

def Slot.waiting? : Slot → Option (Kernel Float)
  | .waiting job => some job.kernel
  | _ => none

def Pool.remaining (p : Pool) : Nat := (p.slots.map Slot.remaining).sum

/-- The kernels of a batch, whether a model has been built of them or will be. -/
def Pool.kernels (p : Pool) : Multiset (Kernel Float) :=
  ↑(p.built ++ p.slots.filterMap Slot.waiting?)

def Pool.IsFinished (p : Pool) : Prop := ∀ s ∈ p.slots, s.isDone

namespace Evaluator

variable {M : Type} [Model M] {ev : Evaluator M} {workers : Nat} {xs ys : List Float}

variable (ev xs ys) in
def due : Slot → Except Error Report
  | .waiting job => ev.work xs ys job
  | .running job => ev.work xs ys job
  | .done outcome => outcome

variable {p p' : Pool}

theorem Steps.map_due_eq (h : ev.Steps workers xs ys p p') :
    p'.slots.map (ev.due xs ys) = p.slots.map (ev.due xs ys) := by
  cases h with
  | start => simp [due]
  | finish => simp [due]

theorem Steps.kernels_eq (h : ev.Steps workers xs ys p p') : p'.kernels = p.kernels := by
  cases h with
  | @start before after job built =>
    have hmoved : (built ++ [job.kernel] ++
        (before ++ .running job :: after).filterMap Slot.waiting?).Perm
          (built ++ (before ++ .waiting job :: after).filterMap Slot.waiting?) := by
      rw [List.filterMap_append, List.filterMap_append, List.filterMap_cons_none rfl,
        List.filterMap_cons_some (f := Slot.waiting?) rfl, List.append_assoc,
        List.singleton_append]
      exact List.perm_middle.symm.append_left built
    exact Multiset.coe_eq_coe.2 hmoved
  | finish =>
    rw [Pool.kernels, Pool.kernels, List.filterMap_append, List.filterMap_append,
      List.filterMap_cons_none rfl, List.filterMap_cons_none rfl]

theorem Steps.remaining_eq (h : ev.Steps workers xs ys p p') :
    p.remaining = p'.remaining + 1 := by
  cases h with
  | start =>
    simp only [Pool.remaining, List.map_append, List.sum_append, List.map_cons, List.sum_cons,
      Slot.remaining]
    omega
  | finish =>
    simp only [Pool.remaining, List.map_append, List.sum_append, List.map_cons, List.sum_cons,
      Slot.remaining]
    omega

theorem wellFounded_steps : WellFounded fun p' p ↦ ev.Steps workers xs ys p p' :=
  Subrelation.wf (fun {_ _} h ↦ Nat.lt_of_succ_le h.remaining_eq.ge) (measure Pool.remaining).wf

theorem exists_steps (hworkers : 0 < workers) (h : ¬ p.IsFinished) :
    ∃ p', ev.Steps workers xs ys p p' := by
  obtain ⟨slots, built⟩ := p
  -- A worker that is busy can finish, and if there is none then all of them are free.
  by_cases hrunning : ∃ job, .running job ∈ slots
  · obtain ⟨job, hjob⟩ := hrunning
    obtain ⟨before, after, rfl⟩ := List.append_of_mem hjob
    exact ⟨_, .finish⟩
  · simp only [Pool.IsFinished, not_forall] at h
    obtain ⟨s, hs, hdone⟩ := h
    cases s with
    | waiting job =>
      obtain ⟨before, after, rfl⟩ := List.append_of_mem hs
      have hidle : (before ++ after).countP Slot.isRunning = 0 := by
        rw [List.countP_eq_zero]
        intro s hs hs'
        cases s with
        | running job =>
          exact hrunning ⟨job, by simp only [List.mem_append, List.mem_cons] at hs ⊢; tauto⟩
        | waiting job => cases hs'
        | done outcome => cases hs'
      exact ⟨_, .start (hidle ▸ hworkers)⟩
    | running job => exact absurd ⟨job, hs⟩ hrunning
    | done outcome => exact absurd rfl hdone

theorem exists_finished (hworkers : 0 < workers) (p : Pool) :
    ∃ p', ReflTransGen (ev.Steps workers xs ys) p p' ∧ p'.IsFinished := by
  have hwf : WellFounded fun p' p ↦ ev.Steps workers xs ys p p' := wellFounded_steps
  induction p using hwf.induction with
  | _ p ih =>
    by_cases hfinished : p.IsFinished
    · exact ⟨p, .refl, hfinished⟩
    · obtain ⟨q, hq⟩ : ∃ q, ev.Steps workers xs ys p q := exists_steps hworkers hfinished
      obtain ⟨p', hp', hfinished⟩ := ih q hq
      exact ⟨p', .head hq hp', hfinished⟩

variable {queue : List Job}

theorem map_due_of_run (h : ReflTransGen (ev.Steps workers xs ys) (.start queue) p) :
    p.slots.map (ev.due xs ys) = queue.map (ev.work xs ys) := by
  induction h with
  | refl => simp [Pool.start, due]
  | tail _ hstep ih => rw [hstep.map_due_eq, ih]

theorem kernels_of_run (h : ReflTransGen (ev.Steps workers xs ys) (.start queue) p) :
    p.kernels = queue.map (·.kernel) := by
  induction h with
  | refl => simp [Pool.start, Pool.kernels, Slot.waiting?, List.filterMap_map, Function.comp_def]
  | tail _ hstep ih => rw [hstep.kernels_eq, ih]

end Evaluator

end CovarianceSearch
