import CovarianceSearch.Discovery.Form
import CovarianceSearch.Proofs.Document.Format
import CovarianceSearch.Proofs.Entry.Form

namespace CovarianceSearch

namespace Termination

/-- Whether the depth is a word, which has a sign only after the last depth. -/
def IsWritable : Termination → Prop
  | .maxDepthReached depth => fitsWord depth
  | .emptySearchSpace depth | .earlyStopping depth _ _ | .cancelled depth => depth < UInt64.size

def mapReals (f : Float → Float) : Termination → Termination
  | .earlyStopping depth improvement threshold =>
    .earlyStopping depth (f improvement) (f threshold)
  | t => t

variable {t t' : Termination} {depth : ℕ} {fields : Fields}

theorem IsWritable.mapReals (h : t.IsWritable) (f : Float → Float) : (t.mapReals f).IsWritable := by
  cases t <;> exact h

theorem reals_toDatum_mapReals (f : Float → Float) (t : Termination) :
    (t.mapReals f).toDatum.reals = t.toDatum.reals.map f := by
  cases t <;> rfl

theorem IsWritable.fits_toDatum (h : t.IsWritable) : t.toDatum.Fits := by
  cases t with
  | maxDepthReached depth => exact ⟨by simp, trivial, Datum.fits_of_fitsWord h, trivial⟩
  | emptySearchSpace depth => exact ⟨by simp, trivial, Datum.fits_natCast h, trivial⟩
  | earlyStopping depth improvement threshold =>
    exact ⟨by simp, trivial, Datum.fits_natCast h, trivial, trivial, trivial⟩
  | cancelled depth => exact ⟨by simp, trivial, Datum.fits_natCast h, trivial⟩

theorem nesting_toDatum (t : Termination) : t.toDatum.nesting = 1 := by
  cases t <;> rfl

theorem ofDatum?_reason (reason : String) (details : Fields) :
    ofDatum? (.table (("reason", .text reason) :: details)) =
      ofReason? reason (.table (("reason", .text reason) :: details)) := by
  rw [ofDatum?, Fields.required?_cons_self, Datum.text?, Option.bind_some]

section

variable {improvement threshold : Float}

theorem ofReason?_maxDepthReached {depth : ℤ}
    (h : fields.required? "depth" Datum.integer? = some depth) :
    ofReason? "max_depth_reached" (.table fields) = some (.maxDepthReached depth) := by
  simp [ofReason?, Datum.record?, h]

variable (h : fields.required? "depth" Datum.natural? = some depth)

include h

theorem ofReason?_emptySearchSpace :
    ofReason? "empty_search_space" (.table fields) = some (.emptySearchSpace depth) := by
  simp [ofReason?, Datum.record?, h]

theorem ofReason?_earlyStopping
    (himprovement : fields.required? "improvement" Datum.real? = some improvement)
    (hthreshold : fields.required? "threshold" Datum.real? = some threshold) :
    ofReason? "early_stopping" (.table fields) =
      some (.earlyStopping depth improvement threshold) := by
  simp [ofReason?, Datum.record?, h, himprovement, hthreshold]

theorem ofReason?_cancelled :
    ofReason? "cancelled" (.table fields) = some (.cancelled depth) := by
  simp [ofReason?, Datum.record?, h]

end

theorem IsWritable.ofDatum?_toDatum (h : t.IsWritable) : ofDatum? t.toDatum = some t := by
  cases t with
  | maxDepthReached depth =>
    have hdepth : (Datum.integer depth).integer? = some depth := if_pos h
    exact (ofDatum?_reason _ _).trans (ofReason?_maxDepthReached (by simp [hdepth]))
  | emptySearchSpace depth =>
    have hdepth := Datum.natural?_natCast h
    exact (ofDatum?_reason _ _).trans (ofReason?_emptySearchSpace (by simp [hdepth]))
  | earlyStopping depth improvement threshold =>
    have hdepth := Datum.natural?_natCast h
    exact (ofDatum?_reason _ _).trans
      (ofReason?_earlyStopping (by simp [hdepth]) (by simp [Datum.real?]) (by simp [Datum.real?]))
  | cancelled depth =>
    have hdepth := Datum.natural?_natCast h
    exact (ofDatum?_reason _ _).trans (ofReason?_cancelled (by simp [hdepth]))

theorem exists_real?_of_ofReason? (h : ofReason? "early_stopping" (.table fields) = some t) :
    (∃ x, fields.required? "improvement" Datum.real? = some x) ∧
      ∃ x, fields.required? "threshold" Datum.real? = some x := by
  simp only [ofReason?, Datum.record?, Option.bind_eq_bind, Option.bind_some,
    Option.bind_eq_some_iff] at h
  obtain ⟨-, -, improvement, himprovement, threshold, hthreshold, -⟩ := h
  exact ⟨⟨improvement, himprovement⟩, ⟨threshold, hthreshold⟩⟩

theorem isFinite_of_ofDatum? (h : ofDatum? t.toDatum.settled = some t') :
    ∀ x ∈ t.toDatum.reals, x.isFinite := by
  cases t with
  | earlyStopping depth improvement threshold =>
    have hreason := (ofDatum?_reason "early_stopping"
      [("depth", .integer depth), ("improvement", (Datum.real improvement).settled),
        ("threshold", (Datum.real threshold).settled)]).symm.trans h
    obtain ⟨⟨x, hx⟩, y, hy⟩ := exists_real?_of_ofReason? hreason
    have himprovement : improvement.isFinite := Datum.real?_settled (by simpa using hx)
    have hthreshold : threshold.isFinite := Datum.real?_settled (by simpa using hy)
    change ∀ x ∈ [improvement, threshold], _
    simp [himprovement, hthreshold]
  | _ => exact nofun

end Termination

namespace Discovery

/-- Whether a result can be written down so that it is read again, reals that are not finite
apart. -/
structure IsWritable (d : Discovery) : Prop where
  kernels : ∀ e ∈ d.kernels, e.IsWritable
  termination : d.termination.IsWritable
  explored_lt : d.explored < UInt64.size

def mapReals (f : Float → Float) (d : Discovery) : Discovery :=
  { d with
    kernels := d.kernels.map (Entry.mapReals f)
    progression := d.progression.map f
    termination := d.termination.mapReals f }

variable {d : Discovery}

theorem toDatum_eq (d : Discovery) : d.toDatum = .table
    [("kernels", .list (d.kernels.map Entry.toDatum)),
      ("highscore_progression", .list (d.progression.map .real)),
      ("termination_reason", d.termination.toDatum), ("explored", .integer d.explored),
      ("started_at", .text d.startedAt), ("finished_at", .text d.finishedAt)] := rfl

theorem reals_toDatum (d : Discovery) : d.toDatum.reals =
    d.kernels.flatMap (·.toDatum.reals) ++ (d.progression ++ d.termination.toDatum.reals) := by
  rw [toDatum_eq]
  simp [Datum.reals, Datum.fieldReals, Datum.itemReals_eq_flatMap, List.flatMap_map]

theorem reals_toDatum_mapReals (f : Float → Float) (d : Discovery) :
    (d.mapReals f).toDatum.reals = d.toDatum.reals.map f := by
  have hkernels : (d.kernels.map (Entry.mapReals f)).flatMap (·.toDatum.reals) =
      (d.kernels.flatMap (·.toDatum.reals)).map f := by
    rw [List.flatMap_map, List.map_flatMap]
    exact List.flatMap_congr fun e _ ↦ Entry.reals_toDatum_mapReals f e
  rw [reals_toDatum, reals_toDatum, List.map_append, List.map_append, ← hkernels,
    ← Termination.reals_toDatum_mapReals]
  rfl

theorem IsWritable.mapReals (h : d.IsWritable) (f : Float → Float) : (d.mapReals f).IsWritable where
  kernels := List.forall_mem_map.2 fun e he ↦ (h.kernels e he).mapReals f
  termination := h.termination.mapReals f
  explored_lt := h.explored_lt

theorem IsWritable.fits_toDatum (h : d.IsWritable) : d.toDatum.Fits := by
  have hkernels : Datum.ItemsFit (d.kernels.map Entry.toDatum) :=
    Datum.itemsFit_iff.2 (List.forall_mem_map.2 fun e he ↦ (h.kernels e he).fits_toDatum)
  have hprogression : Datum.ItemsFit (d.progression.map .real) :=
    Datum.itemsFit_iff.2 (List.forall_mem_map.2 fun x _ ↦ trivial)
  rw [toDatum_eq]
  refine ⟨by simp, hkernels, hprogression, h.termination.fits_toDatum,
    Datum.fits_natCast h.explored_lt, trivial, trivial, trivial⟩

theorem IsWritable.nesting_toDatum_le (h : d.IsWritable) : d.toDatum.nesting ≤ 127 := by
  have hkernels : Datum.itemNesting (d.kernels.map Entry.toDatum) ≤ 10 :=
    Datum.itemNesting_le_iff.2
      (List.forall_mem_map.2 fun e he ↦ (h.kernels e he).nesting_toDatum_le)
  have hprogression : Datum.itemNesting (d.progression.map .real) ≤ 0 :=
    Datum.itemNesting_le_iff.2 (List.forall_mem_map.2 fun x _ ↦ Nat.le_refl 0)
  rw [toDatum_eq]
  simp only [Datum.nesting, Datum.fieldNesting, Termination.nesting_toDatum]
  omega

theorem IsWritable.ofDatum?_toDatum (h : d.IsWritable) : ofDatum? d.toDatum = some d := by
  have hkernels : (d.kernels.map Entry.toDatum).mapM Entry.ofDatum? = some d.kernels :=
    Datum.mapM_map_eq_some fun e he ↦ (h.kernels e he).ofDatum?_toDatum
  have hprogression : (d.progression.map Datum.real).mapM Datum.real? = some d.progression :=
    Datum.mapM_map_eq_some fun x _ ↦ rfl
  simp [ofDatum?, toDatum_eq, Datum.record?, Datum.items?, hkernels, hprogression,
    h.termination.ofDatum?_toDatum, Datum.natural?_natCast h.explored_lt, Datum.text?]

theorem isFinite_of_items?_kernels {kernels : List Entry}
    (h : Datum.items? Entry.ofDatum? (Datum.list (d.kernels.map Entry.toDatum)).settled =
      some kernels) : ∀ x ∈ d.kernels.flatMap (·.toDatum.reals), x.isFinite := by
  rw [Datum.settled_list, List.map_map] at h
  intro x hx
  obtain ⟨e, he, hx⟩ := List.mem_flatMap.1 hx
  obtain ⟨e', he'⟩ := Datum.exists_of_mapM_eq_some h _ (List.mem_map_of_mem he)
  exact Entry.isFinite_of_ofDatum? he' x hx

theorem isFinite_of_items?_progression {progression : List Float}
    (h : Datum.items? Datum.real? (Datum.list (d.progression.map .real)).settled =
      some progression) : ∀ x ∈ d.progression, x.isFinite := by
  rw [Datum.settled_list, List.map_map] at h
  intro x hx
  obtain ⟨y, hy⟩ := Datum.exists_of_mapM_eq_some h _ (List.mem_map_of_mem hx)
  exact Datum.real?_settled hy

/-- Nothing that holds null in place of a real number is a result. -/
theorem isFinite_of_ofDatum? {d' : Discovery} (h : ofDatum? d.toDatum.settled = some d') :
    ∀ x ∈ d.toDatum.reals, x.isFinite := by
  simp only [ofDatum?, toDatum_eq, Datum.settled_table, List.map_cons, Datum.record?,
    Option.bind_eq_bind, Option.bind_some, Option.bind_eq_some_iff] at h
  obtain ⟨kernels, hkernels, progression, hprogression, termination, htermination, -⟩ := h
  rw [reals_toDatum, List.forall_mem_append, List.forall_mem_append]
  refine ⟨?_, ?_, ?_⟩
  · exact isFinite_of_items?_kernels (by simpa using hkernels)
  · exact isFinite_of_items?_progression (by simpa using hprogression)
  · exact Termination.isFinite_of_ofDatum? (by simpa using htermination)

variable {f : Format}

theorem IsWritable.exists_write (hf : f.KeepsData) (h : d.IsWritable) :
    ∃ text, d.write f = .ok text ∧ f.read? text = some d.toDatum.settled := by
  obtain ⟨text, htext⟩ := hf.writes d.toDatum
  refine ⟨text, htext, ?_⟩
  rw [← hf.write_settled] at htext
  have hnesting := h.nesting_toDatum_le
  rw [← Datum.nesting_settled] at hnesting
  exact hf.reads_written _ _ h.fits_toDatum.settled hnesting
    (Datum.isFinite_of_mem_reals_settled _) htext

/-- A result is read as it was written if all its numbers are finite, and not at all if not. -/
theorem IsWritable.read?_eq [Decidable (∀ x ∈ d.toDatum.reals, x.isFinite)] (h : d.IsWritable)
    {text : String} (hread : f.read? text = some d.toDatum.settled) :
    read? f text = if ∀ x ∈ d.toDatum.reals, x.isFinite then some d else none := by
  rw [read?, hread, Option.bind_some]
  split
  · next hfinite => rw [Datum.settled_eq_self _ hfinite, h.ofDatum?_toDatum]
  · next hnot =>
    rw [Option.eq_none_iff_forall_ne_some]
    intro d' hd'
    exact hnot (isFinite_of_ofDatum? hd')

end Discovery

end CovarianceSearch
