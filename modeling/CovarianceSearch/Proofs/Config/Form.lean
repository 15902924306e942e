import CovarianceSearch.Config.Form
import CovarianceSearch.Proofs.Document.Format

namespace CovarianceSearch

open Document

namespace Fields

variable {fields : Fields} {α : Type} {name : String} {d : Datum} {default : α}
  {value? : Datum → Option α}

theorem defaulted?_of_mem (hnodup : (fields.map (·.1)).Nodup) (d : Datum)
    (h : (name, d) ∈ fields) : defaulted? fields name default value? = value? d := by
  rw [defaulted?, Datum.lookup_of_mem hnodup h]

theorem defaulted?_written (hnodup : (fields.map (·.1)).Nodup) (d : Datum)
    (h : (name, d) ∈ fields) (hd : d.isNull = false) :
    defaulted? (written fields) name default value? = value? d := by
  have hmem : (name, d) ∈ written fields := List.mem_filter.2 ⟨h, by simp [hd]⟩
  exact defaulted?_of_mem (nodup_written hnodup) d hmem

theorem optional?_written (hnodup : (fields.map (·.1)).Nodup) (d : Datum)
    (h : (name, d) ∈ fields) : optional? (written fields) name value? = d.optional? value? := by
  rw [optional?]
  cases hd : d.isNull with
  | false =>
    have hmem : (name, d) ∈ written fields := List.mem_filter.2 ⟨h, by simp [hd]⟩
    rw [Datum.lookup_of_mem (nodup_written hnodup) hmem, Option.getD_some]
  | true =>
    have hnull : d = .null := by
      cases d <;> first | rfl | cases hd
    have hnone : (written fields).lookup name = none := by
      refine Datum.lookup_eq_none_of_notMem fun hmem ↦ ?_
      obtain ⟨⟨_, e⟩, hfield, rfl⟩ := List.mem_map.1 hmem
      obtain ⟨hfield, he⟩ := List.mem_filter.1 hfield
      have heq := (Datum.lookup_of_mem hnodup hfield).symm.trans (Datum.lookup_of_mem hnodup h)
      rw [Option.some_inj.1 heq, hd] at he
      cases he
    rw [hnone, hnull]
    rfl

end Fields

theorem optional?_optionalReal (x : Option Float) :
    (optionalReal x).optional? Datum.real? = some x := by
  cases x <;> rfl

theorem isNull_or_isValue_optionalReal {x : Option Float} (h : ∀ y ∈ x, y.isFinite) :
    (optionalReal x).isNull ∨ IsValue (optionalReal x) := by
  cases x with
  | none => exact .inl rfl
  | some y => exact .inr (h y rfl)

theorem isSection_written {fields : Fields} {names : List String}
    (hnames : fields.map (·.1) = names) (hnodup : names.Nodup)
    (hkey : ∀ name ∈ names, IsKey name)
    (hvalue : ∀ field ∈ fields, field.2.isNull ∨ IsValue field.2) :
    IsSection (written fields) where
  nodup := nodup_written (hnames ▸ hnodup)
  isKey := fun field hfield ↦
    List.forall_mem_map.1 (hnames ▸ hkey) field (List.mem_filter.1 hfield).1
  isValue := fun field hfield ↦ by
    obtain ⟨hfield, hnull⟩ := List.mem_filter.1 hfield
    exact (hvalue field hfield).resolve_left (by simpa using hnull)

theorem fitsWord_natCast_iff {n : ℕ} : fitsWord n ↔ n < 2 ^ 63 := by
  have hmin : Int64.minValue.toInt = -2 ^ 63 := by decide
  have hmax : Int64.maxValue.toInt = 2 ^ 63 - 1 := by decide
  rw [fitsWord, hmin, hmax]
  simp only [Bool.and_eq_true, decide_eq_true_eq]
  omega

theorem Convention.natural?_literal (blank : Datum → Bool) (surplus : Bool) {n : ℕ}
    (h : n < 2 ^ 63) : (literal blank surplus).natural? (.integer n) = some n := by
  have hnatural : (literal blank surplus).natural? = Datum.natural? := rfl
  rw [hnatural, Datum.natural?_natCast (h.trans (by decide))]

variable {v : Convention} {given : Fields} {blank : Datum → Bool} {surplus : Bool}

namespace SearchConfig

variable {c : SearchConfig}

def fields (c : SearchConfig) : Fields :=
  [("search_depth", .integer c.searchDepth), ("kernels_per_depth", .integer c.kernelsPerDepth),
    ("find_n_best", .integer c.findBest),
    ("full_initial_base_kernel_expansion", .bool c.fullInitialExpansion),
    ("early_stopping_min_rel_delta", optionalReal c.stoppingThreshold),
    ("start_kernel", .text c.startKernel)]

theorem nodup_fieldNames : fieldNames.Nodup := by decide

theorem isKey_of_mem_fieldNames : ∀ name ∈ fieldNames, IsKey name := by
  simp [fieldNames, IsKey]

def naturals (c : SearchConfig) : List ℕ := [c.searchDepth, c.kernelsPerDepth, c.findBest]

theorem isSection_written_fields (hnaturals : ∀ n ∈ c.naturals, n < 2 ^ 63)
    (hthreshold : ∀ x ∈ c.stoppingThreshold, x.isFinite) : IsSection (written c.fields) := by
  refine isSection_written rfl nodup_fieldNames isKey_of_mem_fieldNames ?_
  have hwords : ∀ n ∈ c.naturals, fitsWord n := fun n hn ↦ fitsWord_natCast_iff.2 (hnaturals n hn)
  simp only [naturals, List.forall_mem_cons] at hwords
  simp only [fields, List.forall_mem_cons]
  exact ⟨.inr hwords.1, .inr hwords.2.1, .inr hwords.2.2.1, .inr trivial,
    isNull_or_isValue_optionalReal hthreshold, .inr trivial, nofun⟩

theorem ofDatum?_table
    (hdepth : given.defaulted? "search_depth" 10 v.natural? = some c.searchDepth)
    (hkernels : given.defaulted? "kernels_per_depth" 1 v.natural? = some c.kernelsPerDepth)
    (hbest : given.defaulted? "find_n_best" 1 v.natural? = some c.findBest)
    (hfull : given.defaulted? "full_initial_base_kernel_expansion" false v.bool? =
      some c.fullInitialExpansion)
    (hthreshold : given.optional? "early_stopping_min_rel_delta" v.real? =
      some c.stoppingThreshold)
    (hstart : given.defaulted? "start_kernel" "white" v.text? = some c.startKernel) :
    ofDatum? v (.table given) = some c := by
  simp only [ofDatum?, Datum.section?, Option.bind_eq_bind, Option.bind_some, hdepth, hkernels,
    hbest, hfull, hthreshold, hstart]
  rfl

theorem ofDatum?_written (hnaturals : ∀ n ∈ c.naturals, n < 2 ^ 63) :
    ofDatum? (.literal blank surplus) (.table (written c.fields)) = some c := by
  have hnodup : (c.fields.map (·.1)).Nodup := nodup_fieldNames
  simp only [naturals, List.forall_mem_cons] at hnaturals
  refine ofDatum?_table ?_ ?_ ?_ ?_ ?_ ?_
  · rw [Fields.defaulted?_written hnodup (.integer c.searchDepth) (by simp [fields]) rfl]
    exact Convention.natural?_literal _ _ hnaturals.1
  · rw [Fields.defaulted?_written hnodup (.integer c.kernelsPerDepth) (by simp [fields]) rfl]
    exact Convention.natural?_literal _ _ hnaturals.2.1
  · rw [Fields.defaulted?_written hnodup (.integer c.findBest) (by simp [fields]) rfl]
    exact Convention.natural?_literal _ _ hnaturals.2.2.1
  · rw [Fields.defaulted?_written hnodup (.bool c.fullInitialExpansion) (by simp [fields]) rfl]
    rfl
  · rw [Fields.optional?_written hnodup (optionalReal c.stoppingThreshold) (by simp [fields])]
    exact optional?_optionalReal c.stoppingThreshold
  · rw [Fields.defaulted?_written hnodup (.text c.startKernel) (by simp [fields]) rfl]
    rfl

end SearchConfig

namespace GrammarConfig

variable {c : GrammarConfig}

def fields (c : GrammarConfig) : Fields :=
  [("grammar", .text c.kind.name), ("base_kernels", .list (c.baseKernels.map .text)),
    ("base_kernels_to_exclude", .list (c.excluded.map .text)),
    ("lax_product_with_constant", .bool c.laxConstant)]

theorem nodup_fieldNames : fieldNames.Nodup := by decide

theorem isKey_of_mem_fieldNames : ∀ name ∈ fieldNames, IsKey name := by
  simp [fieldNames, IsKey]

theorem isSection_written_fields (c : GrammarConfig) : IsSection (written c.fields) := by
  refine isSection_written rfl nodup_fieldNames isKey_of_mem_fieldNames ?_
  have htexts (names : List String) : IsValue (.list (names.map .text)) :=
    List.forall_mem_map.2 fun _ _ ↦ trivial
  simp only [fields, List.forall_mem_cons]
  exact ⟨.inr trivial, .inr (htexts _), .inr (htexts _), .inr trivial, nofun⟩

theorem ofDatum?_table
    (hkind : given.defaulted? "grammar" .tree (Datum.choice? GrammarKind.ofName? v.blank) =
      some c.kind)
    (hkernels : given.defaulted? "base_kernels" ({} : GrammarConfig).baseKernels
      (Datum.items? v.text?) = some c.baseKernels)
    (hexcluded : given.defaulted? "base_kernels_to_exclude" [] (Datum.items? v.text?) =
      some c.excluded)
    (hlax : given.defaulted? "lax_product_with_constant" true v.bool? = some c.laxConstant) :
    ofDatum? v (.table given) = some c := by
  simp only [ofDatum?, Datum.section?, Option.bind_eq_bind, Option.bind_some, hkind, hkernels,
    hexcluded, hlax]
  rfl

theorem ofDatum?_written (c : GrammarConfig) :
    ofDatum? (.literal blank surplus) (.table (written c.fields)) = some c := by
  have hnodup : (c.fields.map (·.1)).Nodup := nodup_fieldNames
  have htexts (names : List String) :
      Datum.items? (Convention.literal blank surplus).text? (.list (names.map .text)) =
        some names :=
    Datum.mapM_map_eq_some fun _ _ ↦ rfl
  refine ofDatum?_table ?_ ?_ ?_ ?_
  · rw [Fields.defaulted?_written hnodup (.text c.kind.name) (by simp [fields]) rfl]
    cases c.kind <;> rfl
  · rw [Fields.defaulted?_written hnodup (.list (c.baseKernels.map .text)) (by simp [fields]) rfl]
    exact htexts c.baseKernels
  · rw [Fields.defaulted?_written hnodup (.list (c.excluded.map .text)) (by simp [fields]) rfl]
    exact htexts c.excluded
  · rw [Fields.defaulted?_written hnodup (.bool c.laxConstant) (by simp [fields]) rfl]
    rfl

end GrammarConfig

namespace EvaluationConfig

variable {c : EvaluationConfig}

def fields (c : EvaluationConfig) : Fields :=
  [("metric", .text c.criterion.name), ("workers", .integer c.workers), ("jitter", .bool c.jitter),
    ("jitter_mean", .real c.jitterMean), ("jitter_sd", .real c.jitterDeviation),
    ("shuffle", .bool c.shuffle), ("seed", c.seed.elim .null fun seed : ℕ ↦ .integer seed),
    ("max_optimizer_evaluations", .integer c.maxEvaluations)]

theorem nodup_fieldNames : fieldNames.Nodup := by decide

theorem isKey_of_mem_fieldNames : ∀ name ∈ fieldNames, IsKey name := by
  simp [fieldNames, IsKey]

def naturals (c : EvaluationConfig) : List ℕ := [c.workers, c.maxEvaluations] ++ c.seed.toList

theorem isSection_written_fields (hnaturals : ∀ n ∈ c.naturals, n < 2 ^ 63)
    (hmean : c.jitterMean.isFinite) (hdeviation : c.jitterDeviation.isFinite) :
    IsSection (written c.fields) := by
  refine isSection_written rfl nodup_fieldNames isKey_of_mem_fieldNames ?_
  have hwords : ∀ n ∈ c.naturals, fitsWord n := fun n hn ↦ fitsWord_natCast_iff.2 (hnaturals n hn)
  have hworkers := hwords c.workers (by simp [naturals])
  have hevaluations := hwords c.maxEvaluations (by simp [naturals])
  have hseed : (c.seed.elim Datum.null fun seed : ℕ ↦ .integer seed).isNull ∨
      IsValue (c.seed.elim .null fun seed : ℕ ↦ .integer seed) := by
    cases hc : c.seed with
    | none => exact .inl rfl
    | some seed => exact .inr (hwords seed (by simp [naturals, hc]))
  simp only [fields, List.forall_mem_cons]
  exact ⟨.inr trivial, .inr hworkers, .inr trivial, .inr hmean, .inr hdeviation, .inr trivial,
    hseed, .inr hevaluations, nofun⟩

theorem ofDatum?_table
    (hcriterion : given.defaulted? "metric" .bayesian
      (Datum.choice? Criterion.ofName? v.blank) = some c.criterion)
    (hworkers : given.defaulted? "workers" 1 v.natural? = some c.workers)
    (hjitter : given.defaulted? "jitter" true v.bool? = some c.jitter)
    (hmean : given.defaulted? "jitter_mean" 0.0 v.real? = some c.jitterMean)
    (hdeviation : given.defaulted? "jitter_sd" 0.1 v.real? = some c.jitterDeviation)
    (hshuffle : given.defaulted? "shuffle" false v.bool? = some c.shuffle)
    (hseed : given.optional? "seed" v.natural? = some c.seed)
    (hevaluations : given.defaulted? "max_optimizer_evaluations" 200 v.natural? =
      some c.maxEvaluations) :
    ofDatum? v (.table given) = some c := by
  simp only [ofDatum?, Datum.section?, Option.bind_eq_bind, Option.bind_some, hcriterion, hworkers,
    hjitter, hmean, hdeviation, hshuffle, hseed, hevaluations]
  rfl

theorem ofDatum?_written (hnaturals : ∀ n ∈ c.naturals, n < 2 ^ 63) :
    ofDatum? (.literal blank surplus) (.table (written c.fields)) = some c := by
  have hnodup : (c.fields.map (·.1)).Nodup := nodup_fieldNames
  refine ofDatum?_table ?_ ?_ ?_ ?_ ?_ ?_ ?_ ?_
  · rw [Fields.defaulted?_written hnodup (.text c.criterion.name) (by simp [fields]) rfl]
    cases c.criterion <;> rfl
  · rw [Fields.defaulted?_written hnodup (.integer c.workers) (by simp [fields]) rfl]
    exact Convention.natural?_literal _ _ (hnaturals _ (by simp [naturals]))
  · rw [Fields.defaulted?_written hnodup (.bool c.jitter) (by simp [fields]) rfl]
    rfl
  · rw [Fields.defaulted?_written hnodup (.real c.jitterMean) (by simp [fields]) rfl]
    rfl
  · rw [Fields.defaulted?_written hnodup (.real c.jitterDeviation) (by simp [fields]) rfl]
    rfl
  · rw [Fields.defaulted?_written hnodup (.bool c.shuffle) (by simp [fields]) rfl]
    rfl
  · rw [Fields.optional?_written hnodup (c.seed.elim .null fun seed : ℕ ↦ .integer seed)
      (by simp [fields])]
    cases hc : c.seed with
    | none => rfl
    | some seed =>
      have hread :=
        Convention.natural?_literal blank surplus (hnaturals seed (by simp [naturals, hc]))
      change ((Convention.literal blank surplus).natural? (.integer seed)).map some =
        some (some seed)
      rw [hread]
      rfl
  · rw [Fields.defaulted?_written hnodup (.integer c.maxEvaluations) (by simp [fields]) rfl]
    exact Convention.natural?_literal _ _ (hnaturals _ (by simp [naturals]))

end EvaluationConfig

namespace PreprocessingConfig

variable {c : PreprocessingConfig}

def fields (c : PreprocessingConfig) : Fields :=
  [("rescale_x_to_upper_bound", optionalReal c.upperBound)]

theorem isKey_of_mem_fieldNames : ∀ name ∈ fieldNames, IsKey name := by
  simp [fieldNames, IsKey]

theorem isSection_written_fields (hbound : ∀ x ∈ c.upperBound, x.isFinite) :
    IsSection (written c.fields) := by
  refine isSection_written rfl (List.nodup_singleton _) isKey_of_mem_fieldNames ?_
  simp only [fields, List.forall_mem_cons]
  exact ⟨isNull_or_isValue_optionalReal hbound, nofun⟩

theorem ofDatum?_written (c : PreprocessingConfig) :
    ofDatum? (.literal blank surplus) (.table (written c.fields)) = some c := by
  have hnodup : (c.fields.map (·.1)).Nodup := List.nodup_singleton _
  have hbound : Fields.optional? (written c.fields) "rescale_x_to_upper_bound"
      (Convention.literal blank surplus).real? = some c.upperBound := by
    rw [Fields.optional?_written hnodup (optionalReal c.upperBound) (by simp [fields])]
    exact optional?_optionalReal c.upperBound
  simp only [ofDatum?, Datum.section?, Option.bind_eq_bind, Option.bind_some, hbound]
  rfl

end PreprocessingConfig

namespace Config

variable {c : Config}

def sections (c : Config) : List (String × Fields) :=
  [("search", c.search.fields), ("grammar", c.grammar.fields),
    ("evaluation", c.evaluation.fields), ("preprocessing", c.preprocessing.fields)]

theorem toDatum_eq (c : Config) : c.toDatum = ofSections c.sections := rfl

def naturals (c : Config) : List ℕ := c.search.naturals ++ c.evaluation.naturals

theorem nodup_sectionNames : sectionNames.Nodup := by decide

theorem isKey_of_mem_sectionNames : ∀ name ∈ sectionNames, IsKey name := by
  simp [sectionNames, IsKey]

theorem ofDatum?_table
    (hsearch : given.defaulted? "search" {} (SearchConfig.ofDatum? v) = some c.search)
    (hgrammar : given.defaulted? "grammar" {} (GrammarConfig.ofDatum? v) = some c.grammar)
    (hevaluation : given.defaulted? "evaluation" {} (EvaluationConfig.ofDatum? v) =
      some c.evaluation)
    (hpreprocessing : given.defaulted? "preprocessing" {} (PreprocessingConfig.ofDatum? v) =
      some c.preprocessing) :
    ofDatum? v (.table given) = some c := by
  simp only [ofDatum?, Datum.section?, Option.bind_eq_bind, Option.bind_some, hsearch, hgrammar,
    hevaluation, hpreprocessing]
  rfl

theorem ofDatum?_written (hnaturals : ∀ n ∈ c.naturals, n < 2 ^ 63) :
    ofDatum? (.literal blank surplus) (ofSections (writtenSections c.sections)) = some c := by
  obtain ⟨hsearch, hevaluation⟩ := List.forall_mem_append.1 hnaturals
  obtain ⟨given, hgiven⟩ : ∃ given : Fields, given = [("search", .table (written c.search.fields)),
    ("grammar", .table (written c.grammar.fields)),
    ("evaluation", .table (written c.evaluation.fields)),
    ("preprocessing", .table (written c.preprocessing.fields))] := ⟨_, rfl⟩
  have hdatum : ofSections (writtenSections c.sections) = .table given := by
    rw [hgiven]
    rfl
  have hnodup : (given.map (·.1)).Nodup := by
    rw [hgiven]
    exact nodup_sectionNames
  rw [hdatum]
  refine ofDatum?_table ?_ ?_ ?_ ?_
  · rw [Fields.defaulted?_of_mem hnodup (.table (written c.search.fields)) (by simp [hgiven])]
    exact SearchConfig.ofDatum?_written hsearch
  · rw [Fields.defaulted?_of_mem hnodup (.table (written c.grammar.fields)) (by simp [hgiven])]
    exact GrammarConfig.ofDatum?_written c.grammar
  · rw [Fields.defaulted?_of_mem hnodup (.table (written c.evaluation.fields)) (by simp [hgiven])]
    exact EvaluationConfig.ofDatum?_written hevaluation
  · rw [Fields.defaulted?_of_mem hnodup (.table (written c.preprocessing.fields))
      (by simp [hgiven])]
    exact PreprocessingConfig.ofDatum?_written c.preprocessing

structure IsFinite (c : Config) : Prop where
  threshold : ∀ x ∈ c.search.stoppingThreshold, x.isFinite
  mean : c.evaluation.jitterMean.isFinite
  deviation : c.evaluation.jitterDeviation.isFinite
  bound : ∀ x ∈ c.preprocessing.upperBound, x.isFinite

theorem IsFinite.areSections (h : c.IsFinite) (hnaturals : ∀ n ∈ c.naturals, n < 2 ^ 63) :
    AreSections (writtenSections c.sections) where
  nodup := nodup_sectionNames
  isKey := List.forall_mem_map.1 isKey_of_mem_sectionNames
  isSection := by
    obtain ⟨hsearch, hevaluation⟩ := List.forall_mem_append.1 hnaturals
    simp only [writtenSections, sections, List.map_cons, List.map_nil, List.forall_mem_cons]
    exact ⟨SearchConfig.isSection_written_fields hsearch h.threshold,
      GrammarConfig.isSection_written_fields c.grammar,
      EvaluationConfig.isSection_written_fields hevaluation h.mean h.deviation,
      PreprocessingConfig.isSection_written_fields h.bound, nofun⟩

end Config

end CovarianceSearch
