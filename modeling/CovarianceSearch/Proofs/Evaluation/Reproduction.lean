import CovarianceSearch.Criterion
import CovarianceSearch.Proofs.Evaluation.Schedule
import CovarianceSearch.Proofs.PatternSearch.Best

namespace CovarianceSearch.Evaluator

def exact (criterion : Criterion) (jitter : Option Jitter) (maxEvaluations : ℕ) :
    Evaluator GaussianProcess :=
  ⟨PatternSearch.exactBackend maxEvaluations, criterion.metric, jitter⟩

/-- A model that is built again for a tree takes the parameters as they are and has the score. -/
structure Reproduces (criterion : Criterion) (xs ys : List Float) (t : KernelTree) (score : Float)
    (params : Assignment) (k : Kernel Float) (built model : GaussianProcess) : Prop where
  kernel : Kernel.ofTree t = .ok k
  build : GaussianProcess.build xs ys k = .ok built
  assign : Model.assign built params = .ok model
  parameters : Model.parameters model = params
  score : criterion.score model = .ok score

/-- An evaluation has no score, or its parameters reproduce the score that it has. -/
def IsReproducible (criterion : Criterion) (xs ys : List Float) (t : KernelTree) (v : Evaluation) :
    Prop :=
  v.tree = t ∧ (v.score = Entry.infinity ∧ v.params = none ∨
    v.score.isFinite = true ∧ ∃ params, v.params = some params ∧
      ∃ k built model, Reproduces criterion xs ys t v.score params k built model)

variable {criterion : Criterion} {jitter : Option Jitter} {maxEvaluations : ℕ} {xs ys : List Float}
  {trees : List KernelTree} {deviates : Deviates}

theorem IsReproducible.exists_reproduces {t : KernelTree} {v : Evaluation}
    (h : IsReproducible criterion xs ys t v) (hfinite : v.score.isFinite = true) :
    ∃ params k built model, v.params = some params ∧
      Reproduces criterion xs ys t v.score params k built model := by
  obtain ⟨-, ⟨hscore, -⟩ | ⟨-, params, hparams, k, built, model, h⟩⟩ := h
  · rw [hscore] at hfinite
    cases hfinite
  · exact ⟨params, k, built, model, hparams, h⟩

theorem alike_of_spread {ev : Evaluator GaussianProcess} {m m' : GaussianProcess}
    {deviates : ℕ → Float} (h : ev.spread m deviates = .ok m') : m'.Alike m := by
  unfold spread at h
  split at h
  · cases h
    exact fun _ ↦ rfl
  · exact GaussianProcess.alike_of_assign h

theorem exists_reproduces_of_fit {t : KernelTree} {k : Kernel Float} {deviates : ℕ → Float}
    {score : Float} {params : Assignment} (hk : Kernel.ofTree t = .ok k)
    (h : (exact criterion jitter maxEvaluations).fit xs ys k deviates = .ok (score, params)) :
    ∃ built model, Reproduces criterion xs ys t score params k built model := by
  obtain ⟨built, hbuilt, h⟩ := Outcome.bind_eq_ok_iff.1 h
  obtain ⟨shifted, hshifted, h⟩ := Outcome.bind_eq_ok_iff.1 h
  obtain ⟨model, hmodel, h⟩ := Outcome.bind_eq_ok_iff.1 h
  obtain ⟨score', hscore, h⟩ := Outcome.bind_eq_ok_iff.1 h
  obtain ⟨halike, hplaced⟩ := PatternSearch.exactBackend_optimize_eq_ok hmodel
  have hassign : built.assign model.parameters = .ok model :=
    GaussianProcess.assign_parameters (halike.trans (alike_of_spread hshifted)).symm hplaced
  split at h
  · cases h
    exact ⟨built, model, hk, hbuilt, hassign, rfl, hscore⟩
  · cases h

theorem build_ne_missingTarget (xs ys : List Float) (k : Kernel Float) :
    GaussianProcess.build xs ys k ≠ .error .missingTarget := by
  unfold GaussianProcess.build
  split <;> simp

theorem hasTargets_of_build {k : Kernel Float} {m : GaussianProcess}
    (h : xs.length ≤ ys.length) (hm : GaussianProcess.build xs ys k = .ok m) : m.HasTargets := by
  rw [GaussianProcess.eq_of_build hm]
  exact h

theorem spread_ne_missingTarget (ev : Evaluator GaussianProcess) (m : GaussianProcess)
    (deviates : ℕ → Float) : ev.spread m deviates ≠ .error .missingTarget := by
  unfold spread
  split
  · simp
  · exact GaussianProcess.assign_ne_missingTarget m _

theorem score_ne_missingTarget {m : GaussianProcess} (h : m.HasTargets) :
    criterion.score m ≠ .error .missingTarget := by
  apply Outcome.bind_ne_error (GaussianProcess.logLikelihood_ne_missingTarget h)
  intro answer _ hscore
  dsimp only at hscore
  split at hscore <;> cases hscore

theorem fit_ne_missingTarget (h : xs.length ≤ ys.length) (k : Kernel Float)
    (deviates : ℕ → Float) : (exact criterion jitter maxEvaluations).fit xs ys k deviates ≠
      .error .missingTarget := by
  apply Outcome.bind_ne_error (build_ne_missingTarget xs ys k)
  intro built hbuilt
  have hbuilt := hasTargets_of_build h hbuilt
  apply Outcome.bind_ne_error (spread_ne_missingTarget _ built deviates)
  intro shifted hshifted
  have hshifted := (alike_of_spread hshifted).hasTargets hbuilt
  apply Outcome.bind_ne_error
    (PatternSearch.exactBackend_optimize_ne_missingTarget hshifted maxEvaluations)
  intro model hmodel
  have hmodel := (PatternSearch.exactBackend_optimize_eq_ok hmodel).1.hasTargets hshifted
  apply Outcome.bind_ne_error (score_ne_missingTarget hmodel)
  intro score _ hfit
  split at hfit <;> cases hfit

/-- The parameters that are reported for a valid tree reproduce its score: the model that is built
again takes them as they are and is scored the same. -/
theorem evaluate_reproduces (htrees : ∀ t ∈ trees, t.IsValid) (criterion : Criterion)
    (jitter : Option Jitter) (maxEvaluations : ℕ) (xs ys : List Float) (deviates : Deviates) :
    (xs.length ≤ ys.length → ∃ evaluations,
      (exact criterion jitter maxEvaluations).evaluate xs ys trees deviates = .ok evaluations) ∧
    ∀ evaluations,
      (exact criterion jitter maxEvaluations).evaluate xs ys trees deviates = .ok evaluations →
        List.Forall₂ (IsReproducible criterion xs ys) trees evaluations := by
  refine ⟨fun hlength ↦ ?_, fun evaluations h ↦ ?_⟩
  · apply exists_evaluate htrees
    intro k deviates
    exact fit_ne_missingTarget hlength k deviates
  · have hsettled := forall₂_settle h
    rw [← List.zipIdx_map_fst 0 trees, List.forall₂_map_left_iff]
    refine hsettled.imp ?_
    rintro ⟨t, i⟩ v ⟨htree, hscore, k, hk, hv⟩
    refine ⟨htree, ?_⟩
    unfold settle at hv
    split at hv
    · next score params hfit =>
      cases hv
      exact .inr ⟨isFinite_of_fit hfit, params, rfl, k, exists_reproduces_of_fit hk hfit⟩
    · cases hv
      exact .inl ⟨rfl, rfl⟩
    · cases hv

theorem not_reproduces_lostLine {score : Float} {params : Assignment} {k : Kernel Float}
    {built model : GaussianProcess} : ¬ Reproduces criterion PatternSearch.lostLine.inputs
      PatternSearch.lostLine.targets (.leaf .linear) score params k built model := by
  intro h
  obtain rfl : .leaf (.standard .linear) = k := Except.ok.inj h.kernel
  obtain rfl : built = PatternSearch.lostLine := GaussianProcess.eq_of_build h.build
  obtain ⟨-, hmodel⟩ := GaussianProcess.assign_eq_ok_iff.1 h.assign
  have hloss := PatternSearch.negativeLogLikelihood_lostLine fun path v ↦
    (params.get? path).elim v GaussianProcess.floored
  have hlikelihood : Model.logLikelihood model = .error (.fit .notPositiveDefinite) := by
    change (- ·) <$> model.negativeLogLikelihood = _
    rw [hmodel]
    exact congrArg ((- ·) <$> ·) hloss
  have hscore := h.score
  rw [Criterion.score, hlikelihood] at hscore
  cases hscore

def noisyLine : KernelTree := .node .sum [.leaf .linear, .leaf .white]

theorem evaluate_reproduces_noisyLine :
    (∀ t ∈ [.leaf .rbf, noisyLine], t.IsValid) ∧
      (∃ curve line, (exact .bayesian (some ⟨0.0, 0.1⟩) 200).evaluate [0.0, 1.0] [0.5, 2.0]
          [.leaf .rbf, noisyLine] (fun _ _ ↦ 1.0) = .ok [curve, line] ∧
        (curve.score.isFinite = true → ∃ params k built model, curve.params = some params ∧
          Reproduces .bayesian [0.0, 1.0] [0.5, 2.0] (.leaf .rbf) curve.score params k built
            model) ∧
        (line.score.isFinite = true → ∃ params k built model, line.params = some params ∧
          Reproduces .bayesian [0.0, 1.0] [0.5, 2.0] noisyLine line.score params k built model)) ∧
      KernelTree.IsValid (.leaf .linear) ∧
      (exact .bayesian none 200).evaluate PatternSearch.lostLine.inputs
        PatternSearch.lostLine.targets [.leaf .linear] (fun _ _ ↦ 1.0) =
          .ok [⟨.leaf .linear, Entry.infinity, none⟩] := by
  have hvalid : ∀ t ∈ [.leaf .rbf, noisyLine], t.IsValid :=
    List.forall_mem_cons.2 ⟨rfl, List.forall_mem_singleton.2 rfl⟩
  have hlinear : KernelTree.IsValid (.leaf .linear) := rfl
  refine ⟨hvalid, ?_, hlinear, ?_⟩
  · obtain ⟨hreturns, hreproduces⟩ := evaluate_reproduces hvalid .bayesian (some ⟨0.0, 0.1⟩) 200
      [0.0, 1.0] [0.5, 2.0] fun _ _ ↦ 1.0
    obtain ⟨evaluations, hevaluations⟩ := hreturns (by decide)
    obtain _ | ⟨hcurve, _ | ⟨hline, ⟨⟩⟩⟩ := hreproduces evaluations hevaluations
    exact ⟨_, _, hevaluations, hcurve.exists_reproduces, hline.exists_reproduces⟩
  · obtain ⟨hreturns, hreproduces⟩ :=
      evaluate_reproduces (List.forall_mem_singleton.2 hlinear) .bayesian none 200
        PatternSearch.lostLine.inputs PatternSearch.lostLine.targets fun _ _ ↦ 1.0
    obtain ⟨evaluations, hevaluations⟩ := hreturns le_rfl
    obtain _ | ⟨⟨htree, hcases⟩, ⟨⟩⟩ := hreproduces evaluations hevaluations
    obtain ⟨hscore, hparams⟩ | ⟨-, params, -, k, built, model, h⟩ := hcases
    · rw [hevaluations, ← htree, ← hscore, ← hparams]
    · exact absurd h not_reproduces_lostLine

end CovarianceSearch.Evaluator
