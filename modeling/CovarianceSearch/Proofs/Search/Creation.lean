import CovarianceSearch.Proofs.Config.Validation
import CovarianceSearch.Proofs.Search.Run

namespace CovarianceSearch

theorem Evaluator.create_spread_of_validate {M : Type} {c : EvaluationConfig}
    (h : c.validate = .ok ()) (backend : Backend M) (metric : Metric M) :
    create backend metric c.spread = .ok ⟨backend, metric, c.spread⟩ := by
  have hfinite : c.spread.all (·.deviation.isFinite) = true := by
    unfold EvaluationConfig.spread
    split
    · exact (EvaluationConfig.validate_eq_ok_iff.1 h).2.1.2.1
    · rfl
  rw [create, if_pos hfinite]

theorem Config.sections_of_validate {c : Config} (h : c.validate = .ok ()) :
    c.search.validate = .ok () ∧ c.grammar.validate = .ok () ∧ c.evaluation.validate = .ok () ∧
      c.preprocessing.validate = .ok () := by
  obtain ⟨_, hsearch, h⟩ := Outcome.bind_eq_ok_iff.1 h
  obtain ⟨_, hgrammar, h⟩ := Outcome.bind_eq_ok_iff.1 h
  obtain ⟨_, hevaluation, h⟩ := Outcome.bind_eq_ok_iff.1 h
  exact ⟨Outcome.mapError_eq_ok_iff.1 hsearch, Outcome.mapError_eq_ok_iff.1 hgrammar,
    Outcome.mapError_eq_ok_iff.1 hevaluation, Outcome.mapError_eq_ok_iff.1 h⟩

namespace Search

variable {M : Type} {config : Config} {backend : Backend M} {metric : Metric M}

/-- Behind validation only the starting kernel is left to be looked up. -/
theorem create_eq_of_validate (h : config.validate = .ok ()) (backend : Backend M)
    (metric : Metric M) : ∃ p, config.grammar.palette = .ok p ∧
      create config backend metric =
        ((BaseKernel.require config.search.startKernel).mapError .config).map fun start ↦
          ⟨config.search, ⟨config.grammar.kind, p⟩,
            ⟨backend, metric, config.evaluation.spread⟩, start⟩ := by
  obtain ⟨-, hgrammar, hevaluation, -⟩ := Config.sections_of_validate h
  obtain ⟨⟨p, hp⟩, -⟩ := GrammarConfig.validate_eq_ok_iff.1 hgrammar
  refine ⟨p, hp, ?_⟩
  rw [create, h, GrammarConfig.grammar, hp, Evaluator.create_spread_of_validate hevaluation]
  cases BaseKernel.require config.search.startKernel <;> rfl

/-- A search can be created from an accepted configuration unless its starting kernel is unknown,
which is then what the error says. -/
theorem create_of_validate (h : config.validate = .ok ()) (backend : Backend M)
    (metric : Metric M) :
    ((∃ search, create config backend metric = .ok search) ↔
      ∃ k, BaseKernel.ofName? config.search.startKernel = some k) ∧
    (BaseKernel.ofName? config.search.startKernel = none →
      create config backend metric =
        .error (.config (.unknownKernel config.search.startKernel))) := by
  obtain ⟨p, -, hcreate⟩ := create_eq_of_validate h backend metric
  rw [hcreate]
  cases hstart : BaseKernel.ofName? config.search.startKernel with
  | none => simp [BaseKernel.require, hstart, Except.mapError, Except.map]
  | some k => simp [BaseKernel.require, hstart, Except.mapError, Except.map]

def customConfig (start : String) : Config where
  search := { startKernel := start }
  grammar := { baseKernels := ["polynomial03", "rbf"], excluded := ["rbf"] }
  evaluation := { jitterMean := -1.5, jitterDeviation := 0.0 }

theorem validate_customConfig (start : String) : (customConfig start).validate = .ok () := by
  have hsearch : (customConfig start).search.validate = .ok () := rfl
  have hgrammar : (customConfig start).grammar.validate = .ok () := by
    change GrammarConfig.validate
      { baseKernels := ["polynomial03", "rbf"], excluded := ["rbf"] } = _
    decide
  have hevaluation : (customConfig start).evaluation.validate = .ok () := by
    change EvaluationConfig.validate { jitterMean := -1.5, jitterDeviation := 0.0 } = _
    decide
  rw [Config.validate, hsearch, hgrammar, hevaluation]
  rfl

theorem create_of_validate_customConfig :
    (customConfig "polynomial3").validate = .ok () ∧
      (∃ search, create (customConfig "polynomial3") smallBackend smallMetric = .ok search) ∧
      (customConfig "squiggle").validate = .ok () ∧
      create (customConfig "squiggle") smallBackend smallMetric =
        .error (.config (.unknownKernel "squiggle")) := by
  have hvalid := validate_customConfig "polynomial3"
  have hvalid' := validate_customConfig "squiggle"
  refine ⟨hvalid, ?_, hvalid', ?_⟩
  · exact (create_of_validate hvalid smallBackend smallMetric).1.2 ⟨.polynomial 3, by decide⟩
  · exact (create_of_validate hvalid' smallBackend smallMetric).2 (by decide)

end Search

end CovarianceSearch
