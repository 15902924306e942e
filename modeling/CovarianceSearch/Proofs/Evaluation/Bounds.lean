import CovarianceSearch.Proofs.Evaluation.Reproduction
import CovarianceSearch.Proofs.Likelihood.Buffered
import CovarianceSearch.Proofs.PatternSearch.Best

namespace CovarianceSearch

namespace Likelihood

open Scalar SquareMatrix

variable {R : Type} [Scalar R] {n : ℕ} {k : Kernel R} {noise : R} {xs ys : List R}

theorem not_lt_of_solveLower? {l : SquareMatrix R n} {z : Vector R n}
    (h : solveLower? l ys = some z) : ¬ ys.length < n := by
  rw [solveLower?, ← take_finRange_self] at h
  exact Nat.not_lt.2 (Buffered.le_length_of_foldlM_solveRow? le_rfl h)

theorem lossOf_ne_ok {a : SquareMatrix R n} (h : ys.length < n) (loss : R) :
    lossOf a ys ≠ .ok loss := by
  unfold lossOf
  split
  · nofun
  · split
    · nofun
    · next z hz => exact absurd h (not_lt_of_solveLower? hz)

theorem lossOf_eq_missingTarget_iff {a : SquareMatrix R n} :
    lossOf a ys = .error .missingTarget ↔ (∃ l, cholesky? a = some l) ∧ ys.length < n := by
  constructor
  · intro h
    have hshort : ¬ n ≤ ys.length := fun hle ↦ lossOf_ne_missingTarget hle a h
    unfold lossOf at h
    split at h
    · cases h
    · next l hl => exact ⟨⟨l, hl⟩, Nat.lt_of_not_le hshort⟩
  · rintro ⟨⟨l, hl⟩, hshort⟩
    have hnone : solveLower? l ys = none :=
      Option.eq_none_iff_forall_ne_some.2 fun z hz ↦ not_lt_of_solveLower? hz hshort
    rw [lossOf, hl]
    dsimp only
    rw [hnone]

theorem negativeLogLikelihood_eq_missingTarget_iff :
    negativeLogLikelihood k noise xs ys = .error .missingTarget ↔
      (∃ l, cholesky? (covarianceMatrix k noise xs) = some l) ∧ ys.length < xs.length := by
  rw [← lossOf_eq_missingTarget_iff, negativeLogLikelihood]
  cases xs with
  | nil =>
    have hne : lossOf (covarianceMatrix k noise []) ys ≠ .error .missingTarget :=
      lossOf_ne_missingTarget (Nat.zero_le _) _
    simp [hne]
  | cons x xs => rfl

end Likelihood

namespace GaussianProcess

/-- The loss of a model as it is computed on buffers, where every access is checked. -/
def bufferedLoss (m : GaussianProcess) : Except Halt Float :=
  Likelihood.Buffered.negativeLogLikelihood m.kernel m.noise m.inputs.toArray m.targets.toArray

def HasFactor (m : GaussianProcess) : Prop :=
  ∃ l, Likelihood.cholesky? (Likelihood.covarianceMatrix m.kernel m.noise m.inputs) = some l

variable {m m' : GaussianProcess}

theorem bufferedLoss_eq (m : GaussianProcess) :
    m.bufferedLoss = m.negativeLogLikelihood.mapError (Fault.toHalt m.targets.length) :=
  Likelihood.Buffered.negativeLogLikelihood_eq _ _ _ _

theorem negativeLogLikelihood_eq_missingTarget_iff :
    m.negativeLogLikelihood = .error .missingTarget ↔ m.HasFactor ∧ ¬ m.HasTargets := by
  rw [HasTargets, Nat.not_le]
  exact Likelihood.negativeLogLikelihood_eq_missingTarget_iff

theorem negativeLogLikelihood_ne_ok (h : ¬ m.HasTargets) (loss : Float) :
    m.negativeLogLikelihood ≠ .ok loss := by
  unfold negativeLogLikelihood Likelihood.negativeLogLikelihood
  split
  · nofun
  · exact Likelihood.lossOf_ne_ok (Nat.lt_of_not_le h) loss

/-- The one access that can be out of bounds is that of the first target that is missing. -/
theorem bufferedLoss_eq_outOfBounds_iff {buffer : Buffer} {i : ℕ} :
    m.bufferedLoss = .error (.outOfBounds buffer i) ↔
      buffer = .targets ∧ i = m.targets.length ∧ m.HasFactor ∧ ¬ m.HasTargets := by
  rw [← negativeLogLikelihood_eq_missingTarget_iff, bufferedLoss_eq]
  cases m.negativeLogLikelihood with
  | ok loss => simp [Except.mapError]
  | error e =>
    cases e with
    | fit e => simp [Except.mapError, Fault.toHalt]
    | missingTarget => simp [Except.mapError, Fault.toHalt, eq_comm]

theorem bufferedLoss_of_hasTargets (h : m.HasTargets) :
    (∃ loss, m.bufferedLoss = .ok loss ∧ loss.isFinite = true) ∨
      ∃ e, m.bufferedLoss = .error (.fit e) := by
  have hne := negativeLogLikelihood_ne_missingTarget h
  rw [bufferedLoss_eq]
  cases hloss : m.negativeLogLikelihood with
  | ok loss => exact .inl ⟨loss, rfl, isFinite_of_negativeLogLikelihood hloss⟩
  | error e =>
    cases e with
    | fit e => exact .inr ⟨e, rfl⟩
    | missingTarget => exact absurd hloss hne

theorem Alike.data_eq (h : m.Alike m') : m.inputs = m'.inputs ∧ m.targets = m'.targets := by
  have hdata := congrArg (fun m : GaussianProcess ↦ (m.inputs, m.targets)) (h fun _ ↦ 0)
  exact Prod.mk.inj hdata

theorem data_of_build {xs ys : List Float} {k : Kernel Float} (h : build xs ys k = .ok m) :
    m.inputs = xs ∧ m.targets = ys := by
  rw [eq_of_build h]
  exact ⟨rfl, rfl⟩

end GaussianProcess

namespace Evaluator

open PatternSearch (place startPoint)

variable {criterion : Criterion} {jitter : Option Jitter} {maxEvaluations : ℕ}
  {xs ys : List Float} {k : Kernel Float}

def FitStarts (ev : Evaluator GaussianProcess) (xs ys : List Float) (k : Kernel Float)
    (deviates : ℕ → Float) (start : GaussianProcess) : Prop :=
  ∃ built shifted, ev.backend.build xs ys k = .ok built ∧ ev.spread built deviates = .ok shifted ∧
    place shifted.parameters.names shifted (startPoint shifted) = .ok start

theorem FitStarts.data_eq {deviates : ℕ → Float} {start : GaussianProcess}
    (h : (exact criterion jitter maxEvaluations).FitStarts xs ys k deviates start) :
    start.inputs = xs ∧ start.targets = ys := by
  obtain ⟨built, shifted, hbuilt, hshifted, hstart⟩ := h
  have halike := (PatternSearch.alike_of_place hstart).trans (alike_of_spread hshifted)
  obtain ⟨hinputs, htargets⟩ := halike.data_eq
  obtain ⟨hxs, hys⟩ := GaussianProcess.data_of_build hbuilt
  exact ⟨hinputs.trans hxs, htargets.trans hys⟩

theorem fit_of_start {deviates : ℕ → Float} {start : GaussianProcess} {e : Fault}
    (h : (exact criterion jitter maxEvaluations).FitStarts xs ys k deviates start)
    (hloss : start.negativeLogLikelihood = .error e) :
    (exact criterion jitter maxEvaluations).fit xs ys k deviates = .error e := by
  obtain ⟨built, shifted, hbuilt, hshifted, hstart⟩ := h
  have hoptimize : (exact criterion jitter maxEvaluations).backend.optimize shifted = .error e := by
    change Except.map _ (PatternSearch.minimize _ shifted).best = _
    rw [PatternSearch.minimize_of_error _ hstart hloss]
    rfl
  rw [fit, hbuilt]
  change spread _ built deviates >>= _ = _
  rw [hshifted]
  change (exact criterion jitter maxEvaluations).backend.optimize shifted >>= _ = _
  rw [hoptimize]
  rfl

theorem exists_fitStarts {deviates : ℕ → Float}
    (h : (exact criterion jitter maxEvaluations).fit xs ys k deviates = .error .missingTarget) :
    ∃ start, (exact criterion jitter maxEvaluations).FitStarts xs ys k deviates start := by
  by_contra hnone
  refine Outcome.bind_ne_error (build_ne_missingTarget xs ys k) ?_ h
  intro built hbuilt
  apply Outcome.bind_ne_error (spread_ne_missingTarget _ built deviates)
  intro shifted hshifted
  obtain ⟨start, hstart⟩ := PatternSearch.exists_place (PatternSearch.length_start shifted)
  exact absurd ⟨start, built, shifted, hbuilt, hshifted, hstart shifted (.refl shifted)⟩ hnone

/-- What becomes of a fit without enough targets shows at the first likelihood, which is not a
number then. -/
theorem fit_eq_missingTarget_iff {deviates : ℕ → Float} :
    (exact criterion jitter maxEvaluations).fit xs ys k deviates = .error .missingTarget ↔
      ys.length < xs.length ∧ ∃ start,
        (exact criterion jitter maxEvaluations).FitStarts xs ys k deviates start ∧
          start.HasFactor := by
  constructor
  · intro h
    have hshort : ys.length < xs.length :=
      Nat.lt_of_not_le fun hle ↦ fit_ne_missingTarget hle k deviates h
    obtain ⟨start, hstart⟩ := exists_fitStarts h
    obtain ⟨hinputs, htargets⟩ := hstart.data_eq
    have hdata : ¬ start.HasTargets := by
      rw [GaussianProcess.HasTargets, hinputs, htargets]
      exact Nat.not_le.2 hshort
    refine ⟨hshort, start, hstart, ?_⟩
    cases hloss : start.negativeLogLikelihood with
    | ok loss => exact absurd hloss (GaussianProcess.negativeLogLikelihood_ne_ok hdata loss)
    | error e =>
      cases h.symm.trans (fit_of_start hstart hloss)
      exact (GaussianProcess.negativeLogLikelihood_eq_missingTarget_iff.1 hloss).1
  · rintro ⟨hshort, start, hstart, hfactor⟩
    obtain ⟨hinputs, htargets⟩ := hstart.data_eq
    apply fit_of_start hstart
    rw [GaussianProcess.negativeLogLikelihood_eq_missingTarget_iff, GaussianProcess.HasTargets,
      hinputs, htargets]
    exact ⟨hfactor, Nat.not_le.2 hshort⟩

def HasFactorAt (ev : Evaluator GaussianProcess) (xs ys : List Float) (deviates : ℕ → Float)
    (t : KernelTree) : Prop :=
  ∃ k start, Kernel.ofTree t = .ok k ∧ ev.FitStarts xs ys k deviates start ∧ start.HasFactor

variable {trees : List KernelTree} {deviates : Deviates}

theorem missesTarget_iff :
    (exact criterion jitter maxEvaluations).MissesTarget xs ys trees deviates ↔
      ys.length < xs.length ∧ ∃ p ∈ trees.zipIdx,
        (exact criterion jitter maxEvaluations).HasFactorAt xs ys (deviates p.2) p.1 := by
  constructor
  · rintro ⟨p, hp, k, hk, hfit⟩
    obtain ⟨hshort, start, hstart, hfactor⟩ := fit_eq_missingTarget_iff.1 hfit
    exact ⟨hshort, p, hp, k, start, hk, hstart, hfactor⟩
  · rintro ⟨hshort, p, hp, k, start, hk, hstart, hfactor⟩
    exact ⟨p, hp, k, hk, fit_eq_missingTarget_iff.2 ⟨hshort, start, hstart, hfactor⟩⟩

/-- Every access is in bounds while the likelihood of a model is computed that was built and perhaps
given other parameters, unless there are more inputs than targets: then the target behind the last
one is read as soon as the covariances have a factor. One candidate of which this holds at the point
where its fit starts ends the whole batch, and nothing else does. -/
theorem outOfBounds_iff_targets_short {m m' : GaussianProcess}
    (hbuild : GaussianProcess.build xs ys k = .ok m) (halike : m'.Alike m) :
    (∀ buffer i, m'.bufferedLoss = .error (.outOfBounds buffer i) ↔
      buffer = .targets ∧ i = ys.length ∧ ys.length < xs.length ∧ m'.HasFactor) ∧
    (xs.length ≤ ys.length →
      (∃ loss, m'.bufferedLoss = .ok loss ∧ loss.isFinite = true) ∨
        ∃ e, m'.bufferedLoss = .error (.fit e)) ∧
    m'.bufferedLoss = m'.negativeLogLikelihood.mapError (Fault.toHalt ys.length) ∧
    ∀ criterion jitter maxEvaluations trees deviates, (∀ t ∈ trees, KernelTree.IsValid t) →
      ((exact criterion jitter maxEvaluations).evaluate xs ys trees deviates =
          .error .missingTarget ↔
        ys.length < xs.length ∧ ∃ p ∈ trees.zipIdx,
          (exact criterion jitter maxEvaluations).HasFactorAt xs ys (deviates p.2) p.1) ∧
      ((exact criterion jitter maxEvaluations).evaluate xs ys trees deviates ≠
          .error .missingTarget → ∃ evaluations,
        (exact criterion jitter maxEvaluations).evaluate xs ys trees deviates =
          .ok evaluations) := by
  obtain ⟨hinputs, htargets⟩ := halike.data_eq
  obtain ⟨hxs, hys⟩ := GaussianProcess.data_of_build hbuild
  have hinputs := hinputs.trans hxs
  have htargets := htargets.trans hys
  refine ⟨?_, ?_, ?_, ?_⟩
  · intro buffer i
    rw [GaussianProcess.bufferedLoss_eq_outOfBounds_iff, GaussianProcess.HasTargets, hinputs,
      htargets, Nat.not_le, and_comm (a := m'.HasFactor)]
  · intro hle
    apply GaussianProcess.bufferedLoss_of_hasTargets
    rwa [GaussianProcess.HasTargets, hinputs, htargets]
  · rw [GaussianProcess.bufferedLoss_eq, htargets]
  · intro criterion jitter maxEvaluations trees deviates hvalid
    rw [← missesTarget_iff]
    constructor
    · constructor
      · intro h
        by_contra hmisses
        obtain ⟨evaluations, hok⟩ := (exists_evaluate_iff hvalid).2 hmisses
        cases h.symm.trans hok
      · exact evaluate_of_missesTarget hvalid
    · intro h
      exact (exists_evaluate_iff hvalid).2 fun hmisses ↦ h (evaluate_of_missesTarget hvalid hmisses)

def halfObserved : GaussianProcess := ⟨[0.0, 1.0], [0.0], .leaf (.standard .white), 1.0⟩

theorem halfObserved_leaves_targets :
    GaussianProcess.build [0.0, 1.0] [0.0] (.leaf (.standard .white)) = .ok halfObserved ∧
      halfObserved.Alike halfObserved ∧
      halfObserved.bufferedLoss = .error (.outOfBounds .targets 1) := by
  have hfactor : halfObserved.HasFactor := by
    apply Option.isSome_iff_exists.1
    decide +kernel
  have hbuild : GaussianProcess.build [0.0, 1.0] [0.0] (.leaf (.standard .white)) =
    .ok halfObserved := rfl
  have hbounds := (outOfBounds_iff_targets_short hbuild (.refl _)).1
  exact ⟨hbuild, .refl _, (hbounds .targets 1).2 ⟨rfl, rfl, by decide, hfactor⟩⟩

end Evaluator

end CovarianceSearch
