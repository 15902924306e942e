import CovarianceSearch.Config.Basic
import CovarianceSearch.Proofs.BaseKernel
import CovarianceSearch.Proofs.Outcome

namespace CovarianceSearch

namespace BaseKernel

theorem require_eq_ok_iff {name : String} {k : BaseKernel} :
    require name = .ok k ↔ ofName? name = some k := by
  unfold require
  split <;> simp_all

theorem mem_iff_of_resolve {names : List String} {ks : List BaseKernel}
    (h : resolve names = .ok ks) (k : BaseKernel) :
    k ∈ ks ↔ ∃ name ∈ names, ofName? name = some k := by
  have hall : List.Forall₂ (fun name k ↦ require name = .ok k) names ks :=
    Outcome.mapM_eq_ok_iff.1 h
  clear h
  induction hall with
  | nil => simp
  | @cons name k' names ks hname _ ih =>
    have hk : k = k' ↔ ofName? name = some k := by
      rw [require_eq_ok_iff.1 hname, Option.some_inj, eq_comm]
    simp [hk, ih]

theorem isSome_ofName?_of_resolve {names : List String} {ks : List BaseKernel}
    (h : resolve names = .ok ks) {name : String} (hname : name ∈ names) :
    ∃ k, ofName? name = some k := by
  have hall : List.Forall₂ (fun name k ↦ require name = .ok k) names ks :=
    Outcome.mapM_eq_ok_iff.1 h
  clear h
  induction hall with
  | nil => cases hname
  | cons hfirst _ ih =>
    cases hname with
    | head => exact ⟨_, require_eq_ok_iff.1 hfirst⟩
    | tail _ hrest => exact ih hrest

theorem eq_name_or_polynomial_of_ofName? {token : String} {k : BaseKernel}
    (h : ofName? token = some k) : token = k.name ∨ ∃ degree, k = .polynomial degree := by
  unfold ofName? at h
  split at h
  · next hfind =>
    have htoken := List.find?_some hfind
    cases h
    rw [beq_iff_eq] at htoken
    cases k with
    | polynomial degree => exact .inr ⟨degree, rfl⟩
    | _ => exact .inl htoken.symm
  · obtain ⟨digits, -, h⟩ := Option.bind_eq_some_iff.1 h
    obtain ⟨degree, -, h⟩ := Option.map_eq_some_iff.1 h
    exact .inr ⟨degree, h.symm⟩

end BaseKernel

theorem SearchConfig.validate_eq_ok_iff {c : SearchConfig} : c.validate = .ok () ↔
    c.kernelsPerDepth ≠ 0 ∧ c.findBest ≠ 0 ∧ ∀ x ∈ c.stoppingThreshold, x.isFinite := by
  have hfinite : ¬ c.stoppingThreshold.any (!·.isFinite) ↔
      ∀ x ∈ c.stoppingThreshold, x.isFinite := by
    cases c.stoppingThreshold <;> simp
  unfold validate
  rw [Outcome.check_then_eq_ok_iff, Outcome.check_then_eq_ok_iff, Outcome.check_eq_ok_iff, hfinite]

theorem EvaluationConfig.validate_eq_ok_iff {c : EvaluationConfig} : c.validate = .ok () ↔
    c.workers ≠ 0 ∧
      (c.jitterMean.isFinite ∧ c.jitterDeviation.isFinite ∧ ¬ c.jitterDeviation < 0.0) ∧
      c.maxEvaluations ≠ 0 := by
  unfold validate
  rw [Outcome.check_then_eq_ok_iff, Outcome.check_then_eq_ok_iff, Outcome.check_eq_ok_iff]
  simp [and_assoc]

theorem PreprocessingConfig.validate_eq_ok_iff {c : PreprocessingConfig} : c.validate = .ok () ↔
    ∀ x ∈ c.upperBound, x.isFinite ∧ 0.0 < x := by
  unfold validate
  cases c.upperBound <;> simp

theorem Palette.active_eq_nil_iff {p : Palette} :
    p.active = [] ↔ ∀ k ∈ p.baseKernels, k ∈ p.excluded := by
  simp [active, List.filter_eq_nil_iff]

namespace GrammarConfig

variable {c : GrammarConfig} {p : Palette}

theorem palette_eq_ok_iff : c.palette = .ok p ↔
    BaseKernel.resolve c.baseKernels = .ok p.baseKernels ∧
      BaseKernel.resolve c.excluded = .ok p.excluded ∧ c.laxConstant = p.laxConstant := by
  unfold palette
  constructor
  · intro h
    obtain ⟨kernels, hkernels, h⟩ := Outcome.bind_eq_ok_iff.1 h
    obtain ⟨excluded, hexcluded, h⟩ := Outcome.bind_eq_ok_iff.1 h
    cases h
    exact ⟨hkernels, hexcluded, rfl⟩
  · intro h
    obtain ⟨hkernels, hexcluded, hlax⟩ := h
    rw [hkernels, hexcluded, hlax]
    rfl

/-- A grammar is accepted if all its names are known and some base kernel is not excluded by the
name that it is given. -/
theorem validate_eq_ok_iff : c.validate = .ok () ↔
    (∃ p, c.palette = .ok p) ∧ ∃ name ∈ c.baseKernels, name ∉ c.excluded := by
  have hall : (if c.baseKernels.all (c.excluded.contains ·) then
      (throw .everythingExcluded : Except ConfigFault Unit) else pure ()) = .ok () ↔
        ∃ name ∈ c.baseKernels, name ∉ c.excluded := by
    rw [Outcome.check_eq_ok_iff]
    simp
  unfold validate
  constructor
  · intro h
    obtain ⟨kernels, hkernels, h⟩ := Outcome.bind_eq_ok_iff.1 h
    obtain ⟨excluded, hexcluded, h⟩ := Outcome.bind_eq_ok_iff.1 h
    refine ⟨⟨⟨kernels, excluded, c.laxConstant⟩, ?_⟩, hall.1 h⟩
    exact palette_eq_ok_iff.2 ⟨hkernels, hexcluded, rfl⟩
  · intro h
    obtain ⟨⟨p, hp⟩, hname⟩ := h
    obtain ⟨hkernels, hexcluded, -⟩ := palette_eq_ok_iff.1 hp
    rw [hkernels, hexcluded]
    exact hall.2 hname

theorem active_eq_nil_iff (hp : c.palette = .ok p) : p.active = [] ↔
    ∀ name ∈ c.baseKernels, ∃ name' ∈ c.excluded,
      BaseKernel.ofName? name' = BaseKernel.ofName? name := by
  obtain ⟨hkernels, hexcluded, -⟩ := palette_eq_ok_iff.1 hp
  rw [Palette.active_eq_nil_iff]
  constructor
  · intro h name hname
    obtain ⟨k, hk⟩ := BaseKernel.isSome_ofName?_of_resolve hkernels hname
    have hmem := h k ((BaseKernel.mem_iff_of_resolve hkernels k).2 ⟨name, hname, hk⟩)
    rw [hk]
    exact (BaseKernel.mem_iff_of_resolve hexcluded k).1 hmem
  · intro h k hk
    obtain ⟨name, hname, hk⟩ := (BaseKernel.mem_iff_of_resolve hkernels k).1 hk
    rw [BaseKernel.mem_iff_of_resolve hexcluded]
    simpa only [hk] using h name hname

/-- An accepted grammar has a palette, and something to expand with unless each of its base kernels
is excluded under some name. Those that are not excluded under their own are polynomials then. -/
theorem active_ne_nil_iff_of_validate (h : c.validate = .ok ()) : ∃ p, c.palette = .ok p ∧
    (p.active ≠ [] ↔ ∃ name ∈ c.baseKernels, ∀ name' ∈ c.excluded,
      BaseKernel.ofName? name' ≠ BaseKernel.ofName? name) ∧
    (p.active = [] → ∀ name ∈ c.baseKernels, name ∉ c.excluded →
      ∃ degree, BaseKernel.ofName? name = some (.polynomial degree) ∧
        ∃ name' ∈ c.excluded, BaseKernel.ofName? name' = some (.polynomial degree)) := by
  obtain ⟨⟨p, hp⟩, -⟩ := validate_eq_ok_iff.1 h
  refine ⟨p, hp, ?_, ?_⟩
  · rw [Ne, active_eq_nil_iff hp]
    push Not
    rfl
  · intro hnil name hname hkept
    obtain ⟨name', hname', hsame⟩ := (active_eq_nil_iff hp).1 hnil name hname
    obtain ⟨k, hk⟩ := BaseKernel.isSome_ofName?_of_resolve (palette_eq_ok_iff.1 hp).1 hname
    have hk' : BaseKernel.ofName? name' = some k := hsame.trans hk
    rcases BaseKernel.eq_name_or_polynomial_of_ofName? hk with htoken | ⟨degree, rfl⟩
    · rcases BaseKernel.eq_name_or_polynomial_of_ofName? hk' with htoken' | ⟨degree, rfl⟩
      · exact absurd (htoken.trans htoken'.symm ▸ hname') hkept
      · exact ⟨degree, hk, name', hname', hk'⟩
    · exact ⟨degree, hk, name', hname', hk'⟩

def respelled : GrammarConfig :=
  { baseKernels := ["rbf", "polynomial2"], excluded := ["rbf", "polynomial02"] }

theorem active_ne_nil_iff_of_validate_respelled : respelled.validate = .ok () ∧
    ∃ p, respelled.palette = .ok p ∧ p.active = [] ∧
      ∃ degree, BaseKernel.ofName? "polynomial2" = some (.polynomial degree) ∧
        ∃ name' ∈ respelled.excluded, BaseKernel.ofName? name' = some (.polynomial degree) := by
  have hvalid : respelled.validate = .ok () := by decide
  obtain ⟨p, hp, hactive, hpolynomial⟩ := active_ne_nil_iff_of_validate hvalid
  have hexcluded : ¬ ∃ name ∈ respelled.baseKernels, ∀ name' ∈ respelled.excluded,
      BaseKernel.ofName? name' ≠ BaseKernel.ofName? name := by decide
  have hnil : p.active = [] := not_not.1 fun h ↦ hexcluded (hactive.1 h)
  exact ⟨hvalid, p, hp, hnil, hpolynomial hnil "polynomial2" (by decide) (by decide)⟩

end GrammarConfig

end CovarianceSearch
