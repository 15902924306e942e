import CovarianceSearch.Proofs.Config.Form
import CovarianceSearch.Proofs.Config.Shared
import CovarianceSearch.Proofs.Document.Toml.RoundTrip
import CovarianceSearch.Proofs.Search.Creation

namespace CovarianceSearch.Config

open Document

variable {c : Config} {f : Format}

theorem isFinite_of_validate (h : c.validate = .ok ()) : c.IsFinite := by
  obtain ⟨hsearch, -, hevaluation, hpreprocessing⟩ := sections_of_validate h
  obtain ⟨-, -, hthreshold⟩ := SearchConfig.validate_eq_ok_iff.1 hsearch
  obtain ⟨-, ⟨hmean, hdeviation, -⟩, -⟩ := EvaluationConfig.validate_eq_ok_iff.1 hevaluation
  have hbound := PreprocessingConfig.validate_eq_ok_iff.1 hpreprocessing
  exact ⟨hthreshold, hmean, hdeviation, fun x hx ↦ (hbound x hx).1⟩

theorem exists_field_of_mem_naturals {n : ℕ} (h : n ∈ c.naturals) :
    ∃ s ∈ c.sections, ∃ key, (key, Datum.integer n) ∈ s.2 := by
  simp only [naturals, SearchConfig.naturals, EvaluationConfig.naturals, List.mem_append,
    List.mem_cons, List.not_mem_nil, or_false, Option.mem_toList] at h
  have hsearch : ("search", c.search.fields) ∈ c.sections := by simp [sections]
  have hevaluation : ("evaluation", c.evaluation.fields) ∈ c.sections := by simp [sections]
  obtain (rfl | rfl | rfl) | (rfl | rfl) | hseed := h
  · exact ⟨_, hsearch, "search_depth", by simp [SearchConfig.fields]⟩
  · exact ⟨_, hsearch, "kernels_per_depth", by simp [SearchConfig.fields]⟩
  · exact ⟨_, hsearch, "find_n_best", by simp [SearchConfig.fields]⟩
  · exact ⟨_, hevaluation, "workers", by simp [EvaluationConfig.fields]⟩
  · exact ⟨_, hevaluation, "max_optimizer_evaluations", by simp [EvaluationConfig.fields]⟩
  · exact ⟨_, hevaluation, "seed", by simp [EvaluationConfig.fields, Option.mem_def.1 hseed]⟩

def FitsFile (c : Config) : Prop := ∀ n ∈ c.naturals, n < 2 ^ 63

theorem save_of_not_fitsFile (hf : f.KeepsSections) (h : ¬ c.FitsFile) (writable : Bool) :
    c.save f writable = .error (.config .unserializable) := by
  obtain ⟨n, hmem, hn⟩ : ∃ n ∈ c.naturals, ¬ n < 2 ^ 63 := by
    simpa [FitsFile] using h
  obtain ⟨s, hs, key, hfield⟩ := exists_field_of_mem_naturals hmem
  have hmax : Int64.maxValue.toInt = 2 ^ 63 - 1 := by decide
  have hbig : Int64.maxValue.toInt < n := by
    rw [hmax]
    omega
  rw [save, toDatum_eq, hf.refuses _ s hs key n hfield hbig]

theorem exists_save_and_load (hf : f.KeepsSections) (h : c.validate = .ok ()) (hfits : c.FitsFile) :
    ∃ text, c.save f true = .ok text ∧ load f (some text) = .ok c := by
  obtain ⟨text, hwrite, hread⟩ :=
    hf.reads_written _ ((isFinite_of_validate h).areSections hfits)
  obtain ⟨blank, surplus, hconvention⟩ := hf.convention
  rw [hf.omits_null] at hwrite
  refine ⟨text, by rw [save, toDatum_eq, hwrite]; rfl, ?_⟩
  rw [load, hread, Option.bind_some, hconvention, ofDatum?_written hfits]
  exact checked_eq_ok_iff.2 ⟨rfl, h⟩

/-- A valid configuration can be saved unless a whole number of it has too many bits, which the
file cannot hold. Whatever manager loads the file then holds the very same configuration. -/
theorem save_then_load_of_validate (hf : f.KeepsSections) (h : c.validate = .ok ()) :
    (c.FitsFile → ∃ text, c.save f true = .ok text ∧
      ∀ other : SharedConfig, other.isSpoiled = false →
        other.call (.file f (some text)) = ({ other with config := c }, .ok ())) ∧
      (¬ c.FitsFile → c.save f true = .error (.config .unserializable)) := by
  refine ⟨fun hfits ↦ ?_, fun hbig ↦ save_of_not_fitsFile hf hbig true⟩
  obtain ⟨text, hsave, hload⟩ := exists_save_and_load hf h hfits
  refine ⟨text, hsave, fun other hother ↦ ?_⟩
  have hreplace : other.replace c = ({ other with config := c }, .ok ()) :=
    if_neg (by simp [hother])
  simp only [SharedConfig.call, hload, hreplace]

theorem save_then_load_of_validate_quoted :
    let c : Config :=
      { search := { stoppingThreshold := some 0.25, startKernel := "\"it's\"\n\\" }
        evaluation := { seed := some (2 ^ 63 - 1) } }
    Toml.unbounded.KeepsSections ∧ c.validate = .ok () ∧
      (∃ text, c.save Toml.unbounded true = .ok text ∧
        (({} : SharedConfig).call (.file Toml.unbounded (some text))).1.config = c) ∧
      ({ c with evaluation := { seed := some (2 ^ 63) } } : Config).save Toml.unbounded true =
        .error (.config .unserializable) := by
  intro c
  have hformat := Toml.keepsSections_unbounded
  have hvalid (seed : ℕ) :
      ({ c with evaluation := { seed := some seed } } : Config).validate = .ok () := by
    have hgrammar : ({} : GrammarConfig).validate = .ok () := by decide
    have hevaluation : ({} : EvaluationConfig).validate = .ok () := by decide
    exact validate_of_sections rfl hgrammar hevaluation rfl
  have hfits : c.FitsFile := by
    simp [FitsFile, naturals, SearchConfig.naturals, EvaluationConfig.naturals, c]
  have hbig : ¬ ({ c with evaluation := { seed := some (2 ^ 63) } } : Config).FitsFile := by
    simp [FitsFile, naturals, SearchConfig.naturals, EvaluationConfig.naturals, c]
  obtain ⟨text, hsave, hload⟩ :=
    (save_then_load_of_validate hformat (hvalid (2 ^ 63 - 1))).1 hfits
  refine ⟨hformat, hvalid (2 ^ 63 - 1), ⟨text, hsave, ?_⟩,
    (save_then_load_of_validate hformat (hvalid (2 ^ 63))).2 hbig⟩
  rw [hload {} rfl]

end CovarianceSearch.Config
