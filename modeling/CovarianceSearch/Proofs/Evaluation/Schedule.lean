import CovarianceSearch.GaussianProcess
import CovarianceSearch.Proofs.Evaluation
import CovarianceSearch.Proofs.Evaluation.Pool
import CovarianceSearch.Proofs.StableSort

namespace CovarianceSearch.Evaluator

open Relation (ReflTransGen)

variable {M : Type} [Model M] {ev : Evaluator M} {workers : Nat} {xs ys : List Float}

section gather

variable {job : Job} {report : Report} {e : Error}

theorem work_eq_ok (h : ev.work xs ys job = .ok report) : report.index = job.index := by
  unfold work at h
  split at h
  · cases h
    rfl
  · cases h
    rfl
  · cases h

theorem work_eq_error_iff : ev.work xs ys job = .error e ↔
    e = .missingTarget ∧ ev.fit xs ys job.kernel job.deviates = .error .missingTarget := by
  unfold work
  split
  · next hfit => simp [hfit]
  · next hfit => simp [hfit]
  · next hfit => simp [hfit, eq_comm]

theorem settle_eq_map_work (t : KernelTree) (job : Job) :
    settle t (ev.fit xs ys job.kernel job.deviates) =
      (ev.work xs ys job).map fun r ↦ ⟨t, r.score, r.params⟩ := by
  unfold settle work
  split <;> simp_all [Except.map]

theorem pairwise_index_lt {batch : List Job} {reports : List Report}
    (hbatch : batch.Pairwise fun i j ↦ i.index < j.index)
    (h : batch.mapM (ev.work xs ys) = .ok reports) :
    reports.Pairwise fun r s ↦ r.index < s.index := by
  have hindex : batch.map (·.index) = reports.map (·.index) :=
    map_eq_map_of_forall₂ ((Outcome.mapM_eq_ok_iff.1 h).imp fun _ _ hr ↦ (work_eq_ok hr).symm)
  rw [← List.pairwise_map (f := Report.index) (R := (· < ·)), ← hindex, List.pairwise_map]
  exact hbatch

theorem sort_reports {reports sorted : List Report} (hperm : sorted.Perm reports)
    (hsorted : sorted.Pairwise fun r s ↦ r.index < s.index) :
    StableSort.sort (fun r s ↦ r.index < s.index) reports = sorted := by
  -- No two reports have one place, so that sorting leaves no choice.
  have hdistinct : reports.Pairwise fun r s ↦ r.index ≠ s.index :=
    (hperm.pairwise_iff fun h ↦ h.symm).1 (hsorted.imp ne_of_lt)
  have hsort : (StableSort.sort (fun r s ↦ r.index < s.index) reports).Pairwise
      fun r s ↦ r.index < s.index := by
    refine StableSort.sort_pairwise _ (fun r s : Report ↦ r.index < s.index)
      (fun _ _ _ ↦ Nat.lt_trans) (hdistinct.imp fun {r s} hne ↦ ?_)
    split
    · next h => exact of_decide_eq_true h
    · next h => exact lt_of_le_of_ne (not_lt.1 fun hlt ↦ h (decide_eq_true hlt)) hne
  exact ((StableSort.sort_perm _ _).trans hperm.symm).eq_of_pairwise
    (fun _ _ _ _ h h' ↦ absurd h (lt_asymm h')) hsort hsorted

variable {trees : List KernelTree} {deviates : Deviates} {batch : List Job}

theorem instantiate_eq_ok_iff {kernels : List (Kernel Float)} : instantiate trees = .ok kernels ↔
    List.Forall₂ (fun t k ↦ Kernel.ofTree t = .ok k) trees kernels := by
  simp only [instantiate, Outcome.mapM_eq_ok_iff, Outcome.mapError_eq_ok_iff]

theorem jobs_eq_ok_iff : jobs trees deviates = .ok batch ↔
    ∃ kernels, instantiate trees = .ok kernels ∧
      batch = kernels.zipIdx.map fun (k, i) ↦ ⟨i, k, deviates i⟩ := by
  simp only [jobs, Outcome.bind_eq_ok_iff]
  simp [pure, Except.pure, eq_comm]

theorem jobs_eq_error_iff : jobs trees deviates = .error e ↔ instantiate trees = .error e := by
  unfold jobs
  cases instantiate trees <;> simp [bind, Except.bind, pure, Except.pure]

theorem pairwise_jobs (h : jobs trees deviates = .ok batch) :
    batch.Pairwise fun i j ↦ i.index < j.index := by
  obtain ⟨kernels, -, rfl⟩ := jobs_eq_ok_iff.1 h
  rw [List.pairwise_map]
  exact List.pairwise_map.1 (by simpa [List.zipIdx_map_snd] using List.pairwise_lt_range')

theorem mapM_settle_eq {kernels : List (Kernel Float)} (h : trees.length = kernels.length)
    (n : Nat) :
    ((trees.zip kernels).zipIdx n).mapM
        (fun ((t, k), i) ↦ settle t (ev.fit xs ys k (deviates i))) =
      (((kernels.zipIdx n).map fun (k, i) ↦ Job.mk i k (deviates i)).mapM (ev.work xs ys)).map
        fun reports ↦ List.zipWith (fun r t ↦ ⟨t, r.score, r.params⟩) reports trees := by
  -- The places go on from any `n`, since they do so in the rest of a batch.
  induction trees generalizing kernels n with
  | nil =>
    cases kernels with
    | nil => rfl
    | cons k kernels => cases h
  | cons t trees ih =>
    cases kernels with
    | nil => cases h
    | cons k kernels =>
      simp only [List.zip_cons_cons, List.zipIdx_cons, List.mapM_cons, List.map_cons]
      rw [ih (Nat.succ.inj h), settle_eq_map_work t ⟨n, k, deviates n⟩]
      cases ev.work xs ys ⟨n, k, deviates n⟩ with
      | error e => rfl
      | ok report => cases ((kernels.zipIdx (n + 1)).map _).mapM (ev.work xs ys) <;> rfl

theorem evaluate_of_jobs (h : jobs trees deviates = .ok batch) :
    ev.evaluate xs ys trees deviates = (batch.mapM (ev.work xs ys)).map
      fun reports ↦ List.zipWith (fun r t ↦ ⟨t, r.score, r.params⟩) reports trees := by
  obtain ⟨kernels, hkernels, rfl⟩ := jobs_eq_ok_iff.1 h
  have hevaluate : ev.evaluate xs ys trees deviates = instantiate trees >>= _ := rfl
  rw [hevaluate, hkernels]
  exact mapM_settle_eq (instantiate_eq_ok_iff.1 hkernels).length_eq 0

theorem evaluate_of_jobs_error (h : jobs trees deviates = .error e) :
    ev.evaluate xs ys trees deviates = .error e := by
  have hevaluate : ev.evaluate xs ys trees deviates = instantiate trees >>= _ := rfl
  rw [hevaluate, jobs_eq_error_iff.1 h]
  rfl

end gather

section execution

variable {trees : List KernelTree} {deviates : Deviates} {built : List (Kernel Float)}
  {result : Except Error (List Evaluation)} {evaluations : List Evaluation}

def FirstFault (trees : List KernelTree) (fault : NodeFault) : Prop :=
  ∃ before t after, trees = before ++ t :: after ∧ t.validate = .error fault ∧
    ∀ u ∈ before, u.IsValid

variable (ev xs ys) in
def MissesTarget (trees : List KernelTree) (deviates : Deviates) : Prop :=
  ∃ p ∈ trees.zipIdx, ∃ k, Kernel.ofTree p.1 = .ok k ∧
    ev.fit xs ys k (deviates p.2) = .error .missingTarget

theorem instantiate_eq_error_iff {e : Error} :
    instantiate trees = .error e ↔ ∃ fault, FirstFault trees fault ∧ e = .node fault := by
  have hvalid (t : KernelTree) :
      (∃ k, (Kernel.ofTree (R := Float) t).mapError Error.node = .ok k) ↔ t.IsValid := by
    simp only [Outcome.mapError_eq_ok_iff, Kernel.exists_ofTree_iff]
  have hfault (t : KernelTree) : (Kernel.ofTree (R := Float) t).mapError Error.node = .error e ↔
      ∃ fault, t.validate = .error fault ∧ e = .node fault := by
    simp only [← Kernel.ofTree_eq_error_iff (R := Float)]
    cases Kernel.ofTree (R := Float) t <;> simp [Except.mapError, eq_comm]
  simp only [instantiate, Outcome.mapM_eq_error_iff, hvalid, hfault, FirstFault]
  constructor
  · intro h
    obtain ⟨before, t, after, rfl, ⟨fault, ht, rfl⟩, hbefore⟩ := h
    exact ⟨fault, ⟨before, t, after, rfl, ht, hbefore⟩, rfl⟩
  · intro h
    obtain ⟨fault, ⟨before, t, after, rfl, ht, hbefore⟩, rfl⟩ := h
    exact ⟨before, t, after, rfl, ⟨fault, ht, rfl⟩, hbefore⟩

theorem exists_instantiate (h : ∀ t ∈ trees, t.IsValid) :
    ∃ kernels, instantiate trees = .ok kernels := by
  refine Outcome.exists_mapM_eq_ok fun t ht ↦ ?_
  obtain ⟨k, hk⟩ := Kernel.exists_ofTree (R := Float) (h t ht)
  exact ⟨k, Outcome.mapError_eq_ok_iff.2 hk⟩

theorem mapM_work_of_run {queue : List Job} {reports : List Report}
    (h : ReflTransGen (ev.Steps workers xs ys) (.start queue)
      ⟨reports.map fun r ↦ .done (.ok r), built⟩) :
    queue.mapM (ev.work xs ys) = .ok reports := by
  have hdue : queue.map (ev.work xs ys) = reports.map .ok := by
    rw [← map_due_of_run h, List.map_map]
    rfl
  rw [← List.forall₂_eq_eq_eq, List.forall₂_map_left_iff, List.forall₂_map_right_iff] at hdue
  exact Outcome.mapM_eq_ok_iff.2 hdue

theorem eq_missingTarget_of_mapM_work {batch : List Job} {e : Error}
    (h : batch.mapM (ev.work xs ys) = .error e) : e = .missingTarget := by
  obtain ⟨_, job, _, _, hjob, _⟩ := Outcome.mapM_eq_error_iff.1 h
  exact (work_eq_error_iff.1 hjob).1

theorem mapM_work_of_error {batch : List Job} {job : Job} {e : Error} (hjob : job ∈ batch)
    (h : ev.work xs ys job = .error e) : batch.mapM (ev.work xs ys) = .error e := by
  cases hbatch : batch.mapM (ev.work xs ys) with
  | error e' =>
    rw [eq_missingTarget_of_mapM_work hbatch, (work_eq_error_iff.1 h).1]
  | ok reports =>
    obtain ⟨report, hreport⟩ : ∃ report, ev.work xs ys job = .ok report := by
      obtain ⟨i, hi, rfl⟩ := List.getElem_of_mem hjob
      have hreports := Outcome.mapM_eq_ok_iff.1 hbatch
      exact ⟨_, hreports.get hi (hreports.length_eq ▸ hi)⟩
    rw [h] at hreport
    cases hreport

/-- The result of a batch does not depend on how its jobs are queued, nor on how the workers take
turns. -/
theorem Executes.eq_evaluate (h : ev.Executes workers xs ys trees deviates built result) :
    result = ev.evaluate xs ys trees deviates := by
  cases h with
  | refused hjobs => exact (evaluate_of_jobs_error hjobs).symm
  | completed hjobs hqueue hrun =>
    obtain ⟨sorted, hsorted, hperm⟩ := Outcome.exists_mapM_of_perm hqueue (mapM_work_of_run hrun)
    rw [evaluate_of_jobs hjobs, hsorted, gather,
      sort_reports hperm.symm (pairwise_index_lt (pairwise_jobs hjobs) hsorted)]
    rfl
  | @aborted batch queue pool e hjobs hqueue hrun hdone =>
    have hdue : .error e ∈ queue.map (ev.work xs ys) := by
      rw [← map_due_of_run hrun]
      exact List.mem_map_of_mem (f := ev.due xs ys) hdone
    obtain ⟨job, hjob, hwork⟩ := List.mem_map.1 hdue
    rw [evaluate_of_jobs hjobs, mapM_work_of_error (hqueue.mem_iff.1 hjob) hwork]
    rfl

theorem Executes.built_eq_nil {e : Error}
    (h : ev.Executes workers xs ys trees deviates built result)
    (he : instantiate trees = .error e) : built = [] := by
  have hjobs : jobs trees deviates = .error e := jobs_eq_error_iff.2 he
  cases h with
  | refused => rfl
  | completed hjobs' =>
    rw [hjobs] at hjobs'
    cases hjobs'
  | aborted hjobs' =>
    rw [hjobs] at hjobs'
    cases hjobs'

theorem map_kernel_jobs {batch : List Job} {kernels : List (Kernel Float)}
    (hkernels : instantiate trees = .ok kernels) (h : jobs trees deviates = .ok batch) :
    batch.map (·.kernel) = kernels := by
  obtain ⟨kernels', hkernels', rfl⟩ := jobs_eq_ok_iff.1 h
  rw [hkernels] at hkernels'
  cases hkernels'
  rw [List.map_map]
  exact List.zipIdx_map_fst 0 kernels

theorem Executes.built_perm {kernels : List (Kernel Float)}
    (h : ev.Executes workers xs ys trees deviates built (.ok evaluations))
    (hkernels : instantiate trees = .ok kernels) : built.Perm kernels := by
  cases h with
  | @completed batch queue reports _ hjobs hqueue hrun =>
    have hnone : (reports.map fun r ↦ Slot.done (.ok r)).filterMap Slot.waiting? = [] := by
      rw [List.filterMap_map]
      exact List.filterMap_eq_nil_iff.2 fun _ _ ↦ rfl
    have hbuilt : (built : Multiset (Kernel Float)) = queue.map (·.kernel) := by
      rw [← kernels_of_run hrun, Pool.kernels, hnone, List.append_nil]
    rw [← map_kernel_jobs hkernels hjobs]
    exact (Multiset.coe_eq_coe.1 hbuilt).trans (hqueue.map _)

theorem exists_executes (hworkers : 0 < workers) (trees : List KernelTree) (deviates : Deviates) :
    ∃ built, ev.Executes workers xs ys trees deviates built
      (ev.evaluate xs ys trees deviates) := by
  cases hjobs : jobs trees deviates with
  | error e =>
    rw [evaluate_of_jobs_error hjobs]
    exact ⟨[], .refused hjobs⟩
  | ok batch =>
    obtain ⟨pool, hrun, hfinished⟩ : ∃ pool,
        ReflTransGen (ev.Steps workers xs ys) (.start batch) pool ∧ pool.IsFinished :=
      exists_finished hworkers _
    by_cases herror : ∃ e, .done (.error e) ∈ pool.slots
    · -- The workers have gone through the whole batch, but the first failure counts.
      obtain ⟨e, he⟩ := herror
      have hexecutes := Executes.aborted hjobs (.refl batch) hrun he
      exact ⟨_, hexecutes.eq_evaluate ▸ hexecutes⟩
    · obtain ⟨slots, built⟩ := pool
      obtain ⟨reports, rfl⟩ : slots ∈ Set.range (List.map fun r ↦ Slot.done (.ok r)) := by
        rw [Set.range_list_map]
        intro s hs
        cases s with
        | waiting job => cases hfinished _ hs
        | running job => cases hfinished _ hs
        | done outcome =>
          cases outcome with
          | error e => exact absurd ⟨e, hs⟩ herror
          | ok report => exact ⟨report, rfl⟩
      have hexecutes := Executes.completed hjobs (.refl batch) hrun
      exact ⟨_, hexecutes.eq_evaluate ▸ hexecutes⟩

theorem zipIdx_eq_map_zip {kernels : List (Kernel Float)} (h : trees.length = kernels.length) :
    trees.zipIdx = (trees.zip kernels).zipIdx.map fun p ↦ (p.1.1, p.2) := by
  have hfst : trees = (trees.zip kernels).map Prod.fst := (List.map_fst_zip (Nat.le_of_eq h)).symm
  rw [hfst, List.zipIdx_map, ← hfst]
  rfl

theorem forall₂_settle (h : ev.evaluate xs ys trees deviates = .ok evaluations) :
    List.Forall₂ (fun p v ↦ v.tree = p.1 ∧ IsSettled v.score v.params ∧
      ∃ k, Kernel.ofTree p.1 = .ok k ∧ settle p.1 (ev.fit xs ys k (deviates p.2)) = .ok v)
      trees.zipIdx evaluations := by
  obtain ⟨kernels, hkernels, hsettled⟩ := evaluate_eq_ok_iff.1 h
  rw [zipIdx_eq_map_zip hkernels.length_eq, List.forall₂_map_left_iff]
  have hzip : ∀ p ∈ (trees.zip kernels).zipIdx, Kernel.ofTree p.1.1 = .ok p.1.2 := by
    intro p hp
    exact (List.forall₂_iff_zip.1 hkernels).2 (List.fst_mem_of_mem_zipIdx hp)
  refine ((List.forall₂_and_left _ _).2 ⟨hzip, hsettled⟩).imp fun p v hv ↦ ?_
  obtain ⟨hk, hv⟩ := hv
  exact ⟨(settle_fit hv).1, (settle_fit hv).2, _, hk, hv⟩

theorem exists_evaluate_iff (hvalid : ∀ t ∈ trees, t.IsValid) :
    (∃ evaluations, ev.evaluate xs ys trees deviates = .ok evaluations) ↔
      ¬ ev.MissesTarget xs ys trees deviates := by
  constructor
  · intro h hmisses
    obtain ⟨evaluations, h⟩ := h
    obtain ⟨p, hp, k, hk, hfit⟩ := hmisses
    obtain ⟨i, hi, rfl⟩ := List.getElem_of_mem hp
    have hsettled := forall₂_settle h
    obtain ⟨-, -, k', hk', hv⟩ := hsettled.get hi (hsettled.length_eq ▸ hi)
    rw [List.get_eq_getElem, hk] at hk'
    cases hk'
    rw [List.get_eq_getElem, hfit] at hv
    cases hv
  · intro h
    obtain ⟨kernels, hkernels⟩ := exists_instantiate hvalid
    have hkernels := instantiate_eq_ok_iff.1 hkernels
    have hsettle : ∀ p ∈ (trees.zip kernels).zipIdx,
        ∃ v, settle p.1.1 (ev.fit xs ys p.1.2 (deviates p.2)) = .ok v := by
      intro p hp
      refine exists_settle_fit fun hfit ↦ h ⟨(p.1.1, p.2), ?_, p.1.2, ?_, hfit⟩
      · rw [zipIdx_eq_map_zip hkernels.length_eq]
        exact List.mem_map_of_mem (f := fun p ↦ (p.1.1, p.2)) hp
      · exact (List.forall₂_iff_zip.1 hkernels).2 (List.fst_mem_of_mem_zipIdx hp)
    obtain ⟨evaluations, hevaluations⟩ := Outcome.exists_mapM_eq_ok hsettle
    exact ⟨evaluations,
      evaluate_eq_ok_iff.2 ⟨kernels, hkernels, Outcome.mapM_eq_ok_iff.1 hevaluations⟩⟩

theorem evaluate_of_missesTarget (hvalid : ∀ t ∈ trees, t.IsValid)
    (h : ev.MissesTarget xs ys trees deviates) :
    ev.evaluate xs ys trees deviates = .error .missingTarget := by
  have hfails : ¬ ∃ evaluations, ev.evaluate xs ys trees deviates = .ok evaluations :=
    mt (exists_evaluate_iff hvalid).1 (not_not_intro h)
  obtain ⟨kernels, hkernels⟩ := exists_instantiate hvalid
  have hevaluate : ev.evaluate xs ys trees deviates = _ :=
    evaluate_of_jobs (jobs_eq_ok_iff.2 ⟨kernels, hkernels, rfl⟩)
  cases hwork : (kernels.zipIdx.map fun (k, i) ↦ Job.mk i k (deviates i)).mapM (ev.work xs ys) with
  | error e =>
    rw [hevaluate, hwork, eq_missingTarget_of_mapM_work hwork]
    rfl
  | ok reports =>
    rw [hevaluate, hwork] at hfails
    exact absurd ⟨_, rfl⟩ hfails

/-- However the jobs of a batch are queued and whichever worker is next, the workers come to an end
and the result is the same: the fault of the first candidate that is not valid, before any model is
built, or else one outcome for every candidate, in order and as if it were fitted on its own. Only a
fit that comes to an input without a target ends the batch. -/
theorem executes_evaluate (ev : Evaluator M) (hworkers : 0 < workers) (xs ys : List Float)
    (trees : List KernelTree) (deviates : Deviates) :
    (WellFounded fun p' p ↦ ev.Steps workers xs ys p p') ∧
      (∀ p : Pool, ¬ p.IsFinished → ∃ p', ev.Steps workers xs ys p p') ∧
      (∃ built, ev.Executes workers xs ys trees deviates built
        (ev.evaluate xs ys trees deviates)) ∧
      ∀ built result, ev.Executes workers xs ys trees deviates built result →
        result = ev.evaluate xs ys trees deviates ∧
          (∀ fault, FirstFault trees fault → result = .error (.node fault) ∧ built = []) ∧
          ((∀ t ∈ trees, t.validate = .ok ()) →
            (ev.MissesTarget xs ys trees deviates → result = .error .missingTarget) ∧
              (¬ ev.MissesTarget xs ys trees deviates → ∃ kernels evaluations,
                instantiate trees = .ok kernels ∧ built.Perm kernels ∧
                  result = .ok evaluations ∧
                    List.Forall₂ (fun p v ↦ v.tree = p.1 ∧ IsSettled v.score v.params ∧
                      ∃ k, Kernel.ofTree p.1 = .ok k ∧
                        settle p.1 (ev.fit xs ys k (deviates p.2)) = .ok v)
                      trees.zipIdx evaluations)) := by
  refine ⟨wellFounded_steps, fun p hp ↦ exists_steps hworkers hp,
    exists_executes hworkers trees deviates, fun built result h ↦ ?_⟩
  have hresult := h.eq_evaluate
  refine ⟨hresult, fun fault hfault ↦ ?_, fun hvalid ↦ ⟨fun hmisses ↦ ?_, fun hmisses ↦ ?_⟩⟩
  · have herror := instantiate_eq_error_iff.2 ⟨fault, hfault, rfl⟩
    rw [hresult, evaluate_of_jobs_error (jobs_eq_error_iff.2 herror)]
    exact ⟨rfl, h.built_eq_nil herror⟩
  · rw [hresult, evaluate_of_missesTarget hvalid hmisses]
  · obtain ⟨kernels, hkernels⟩ := exists_instantiate hvalid
    obtain ⟨evaluations, hevaluations⟩ := (exists_evaluate_iff hvalid).2 hmisses
    rw [hevaluations] at hresult
    subst hresult
    exact ⟨kernels, evaluations, hkernels, h.built_perm hkernels, rfl, forall₂_settle hevaluations⟩

def pickyEvaluator : Evaluator GaussianProcess where
  backend := ⟨fun xs ys k ↦ if k.parameterCount = 1 then .error (.fit .notPositiveDefinite)
    else GaussianProcess.build xs ys k, .ok⟩
  metric := ⟨"fixed", fun _ ↦ .ok 5.0⟩
  jitter := none

theorem executes_evaluate_pickyEvaluator : 0 < 2 ∧
    ∀ built result,
      pickyEvaluator.Executes 2 [0.0, 1.0] [0.0, 1.0] [.leaf .white, .leaf .rbf] (fun _ _ ↦ 0.0)
        built result → ∃ kernels evaluations,
          instantiate [.leaf .white, .leaf .rbf] = .ok kernels ∧ built.Perm kernels ∧
            result = .ok evaluations ∧
              List.Forall₂ (fun p v ↦ v.tree = p.1 ∧ IsSettled v.score v.params ∧
                ∃ k, Kernel.ofTree p.1 = .ok k ∧
                  settle p.1 (pickyEvaluator.fit [0.0, 1.0] [0.0, 1.0] k fun _ ↦ 0.0) = .ok v)
                [(.leaf .white, 0), (.leaf .rbf, 1)] evaluations := by
  have hfits : ¬ pickyEvaluator.MissesTarget [0.0, 1.0] [0.0, 1.0] [.leaf .white, .leaf .rbf]
      fun _ _ ↦ 0.0 := by
    intro h
    obtain ⟨p, hp, k, hk, hfit⟩ := h
    have hp : p = (.leaf .white, 0) ∨ p = (.leaf .rbf, 1) := by simpa using hp
    rcases hp with rfl | rfl
    · cases hk
      have hwhite : pickyEvaluator.fit [0.0, 1.0] [0.0, 1.0] (.leaf (.standard .white))
          (fun _ ↦ 0.0) = .error (.fit .notPositiveDefinite) := rfl
      cases hwhite.symm.trans hfit
    · cases hk
      let m : GaussianProcess := ⟨[0.0, 1.0], [0.0, 1.0], .leaf (.standard .rbf), 1.0⟩
      have hscore : (if (5.0 : Float).isFinite then .ok (5.0, Model.parameters m)
          else .error (.fit .nonFinite) : Except Fault (Float × Assignment)) =
            .error .missingTarget := hfit
      rw [if_pos (by decide)] at hscore
      cases hscore
  refine ⟨by decide, fun built result h ↦ ?_⟩
  have hworkers : 0 < 2 := by decide
  have hall := executes_evaluate pickyEvaluator hworkers [0.0, 1.0] [0.0, 1.0]
    [.leaf .white, .leaf .rbf] fun _ _ ↦ 0.0
  exact ((hall.2.2.2 built result h).2.2 (by decide)).2 hfits

end execution

end CovarianceSearch.Evaluator
