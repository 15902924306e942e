import CovarianceSearch.Entry.Form
import CovarianceSearch.Proofs.KernelTree.Form

namespace CovarianceSearch

namespace Assignment

variable {name : String} {value : Float} {entries : List (String × Float)}

theorem insertEntry_of_lt (h : ∀ p ∈ entries, p.1 < name) :
    insertEntry name value entries = entries ++ [(name, value)] := by
  induction entries with
  | nil => rfl
  | cons p entries ih =>
    obtain ⟨hp, hentries⟩ := List.forall_mem_cons.1 h
    rw [insertEntry, if_neg (String.lt_asymm hp), if_pos hp, ih hentries, List.cons_append]

theorem entries_foldl_insert (m : Assignment)
    (h : (m.entries ++ entries).Pairwise fun p q ↦ p.1 < q.1) :
    (entries.foldl (fun m p ↦ m.insert p.1 p.2) m).entries = m.entries ++ entries := by
  induction entries generalizing m with
  | nil => rw [List.foldl_nil, List.append_nil]
  | cons p entries ih =>
    have hinsert : (m.insert p.1 p.2).entries = m.entries ++ [p] :=
      insertEntry_of_lt fun q hq ↦ (List.pairwise_append.1 h).2.2 q hq p List.mem_cons_self
    rw [List.append_cons, ← hinsert] at h
    rw [List.foldl_cons, ih _ h, hinsert, ← List.append_cons]

theorem ofList_entries (m : Assignment) : ofList m.entries = m := by
  have hentries : (ofList m.entries).entries = m.entries :=
    entries_foldl_insert empty (by rw [empty, List.nil_append]; exact m.ordered)
  cases m
  cases hm : ofList _
  rw [hm] at hentries
  cases hentries
  rfl

def mapReals (f : Float → Float) (m : Assignment) : Assignment where
  entries := m.entries.map fun p ↦ (p.1, f p.2)
  ordered := List.pairwise_map.2 m.ordered

theorem reals_toDatum (m : Assignment) : m.toDatum.reals = m.values := by
  rw [toDatum, Datum.reals, Datum.fieldReals_eq_flatMap, List.flatMap_map]
  exact List.flatMap_pure_eq_map _ _

theorem fits_toDatum (m : Assignment) : m.toDatum.Fits := by
  refine ⟨?_, ?_⟩
  · have hnames := m.ordered.imp String.ne_of_lt
    rw [List.map_map]
    exact List.pairwise_map.2 hnames
  · exact Datum.fieldsFit_iff.2 (List.forall_mem_map.2 fun p _ ↦ trivial)

theorem nesting_toDatum_le (m : Assignment) : m.toDatum.nesting ≤ 1 := by
  have hvalues : Datum.fieldNesting (m.entries.map fun p ↦ (p.1, Datum.real p.2)) ≤ 0 :=
    Datum.fieldNesting_le_iff.2 (List.forall_mem_map.2 fun p _ ↦ Nat.le_refl 0)
  rw [toDatum, Datum.nesting]
  exact Nat.succ_le_succ hvalues

theorem ofDatum?_toDatum (m : Assignment) : ofDatum? m.toDatum = some m := by
  have hentries : (m.entries.map fun p ↦ (p.1, Datum.real p.2)).mapM entry? = some m.entries :=
    Datum.mapM_map_eq_some fun p _ ↦ rfl
  change ((m.entries.map fun p ↦ (p.1, Datum.real p.2)).mapM entry?).map ofList = some m
  rw [hentries, Option.map_some, ofList_entries]

theorem isFinite_of_ofDatum? {m m' : Assignment} (h : ofDatum? m.toDatum.settled = some m') :
    ∀ x ∈ m.values, x.isFinite := by
  rw [toDatum, Datum.settled, Datum.settledFields_eq_map, List.map_map] at h
  obtain ⟨entries, hentries, -⟩ := Option.map_eq_some_iff.1 h
  refine List.forall_mem_map.2 fun p hp ↦ ?_
  obtain ⟨q, hq⟩ := Datum.exists_of_mapM_eq_some hentries _ (List.mem_map_of_mem hp)
  obtain ⟨v, hv, -⟩ := Option.map_eq_some_iff.1 hq
  exact Datum.real?_settled hv

end Assignment

namespace Entry

structure IsWritable (e : Entry) : Prop where
  depth_lt : e.depth < UInt64.size
  isExpanded : e.tree.IsExpanded

def mapReals (f : Float → Float) (e : Entry) : Entry :=
  { e with score := f e.score, params := e.params.map (Assignment.mapReals f) }

variable {e : Entry}

theorem IsWritable.mapReals (h : e.IsWritable) (f : Float → Float) : (e.mapReals f).IsWritable :=
  ⟨h.depth_lt, h.isExpanded⟩

theorem toDatum_eq (e : Entry) : e.toDatum = .table
    [("key", .text e.key), ("ast", e.tree.toDatum), ("depth", .integer e.depth),
      ("score", .real e.score), ("params", e.params.elim .null Assignment.toDatum),
      ("expression", e.expression.elim .null .text), ("evaluated", .bool e.evaluated)] := rfl

theorem reals_toDatum (e : Entry) :
    e.toDatum.reals = e.score :: e.params.elim [] Assignment.values := by
  rw [toDatum_eq]
  simp only [Datum.reals, Datum.fieldReals, e.tree.reals_toDatum]
  cases e.params <;> cases e.expression <;> simp [Datum.reals, Assignment.reals_toDatum]

theorem reals_toDatum_mapReals (f : Float → Float) (e : Entry) :
    (e.mapReals f).toDatum.reals = e.toDatum.reals.map f := by
  rw [reals_toDatum, reals_toDatum]
  cases hparams : e.params with
  | none => simp [mapReals, hparams]
  | some m => simp [mapReals, hparams, Assignment.mapReals, Assignment.values]

theorem IsWritable.fits_toDatum (h : e.IsWritable) : e.toDatum.Fits := by
  have hdepth : (Datum.integer e.depth).Fits := Datum.fits_natCast h.depth_lt
  have hparams : (e.params.elim .null Assignment.toDatum).Fits := by
    cases e.params with
    | none => trivial
    | some m => exact m.fits_toDatum
  have hexpression : (e.expression.elim Datum.null Datum.text).Fits := by
    cases e.expression <;> trivial
  rw [toDatum_eq]
  refine ⟨by simp, trivial, e.tree.fits_toDatum, hdepth, trivial, hparams, hexpression, ?_⟩
  exact ⟨trivial, trivial⟩

theorem IsWritable.nesting_toDatum_le (h : e.IsWritable) : e.toDatum.nesting ≤ 10 := by
  have htree := h.isExpanded.nesting_toDatum_le
  have hparams : (e.params.elim .null Assignment.toDatum).nesting ≤ 1 := by
    cases e.params with
    | none => exact Nat.zero_le 1
    | some m => exact m.nesting_toDatum_le
  have hexpression : (e.expression.elim Datum.null Datum.text).nesting = 0 := by
    cases e.expression <;> rfl
  rw [toDatum_eq]
  simp only [Datum.nesting, Datum.fieldNesting, hexpression]
  omega

theorem optional?_params (e : Entry) :
    Datum.optional? Assignment.ofDatum? (e.params.elim .null Assignment.toDatum) =
      some e.params := by
  cases e.params with
  | none => rfl
  | some m => exact congrArg (Option.map some) m.ofDatum?_toDatum

theorem optional?_expression (e : Entry) :
    Datum.optional? Datum.text? (e.expression.elim Datum.null Datum.text) = some e.expression := by
  cases e.expression <;> rfl

theorem IsWritable.ofDatum?_toDatum (h : e.IsWritable) : ofDatum? e.toDatum = some e := by
  simp [ofDatum?, toDatum_eq, Datum.record?, KernelTree.ofDatum?_toDatum,
    Datum.natural?_natCast h.depth_lt, Datum.real?, Datum.text?, Datum.bool?, optional?_params,
    optional?_expression]

theorem isFinite_of_optional?_params {params : Option Assignment}
    (h : Datum.optional? Assignment.ofDatum?
      (e.params.elim .null Assignment.toDatum).settled = some params) :
    ∀ x ∈ e.params.elim [] Assignment.values, x.isFinite := by
  cases hparams : e.params with
  | none => exact nofun
  | some m =>
    rw [hparams] at h
    obtain ⟨m', hm', -⟩ := Option.map_eq_some_iff.1 h
    exact Assignment.isFinite_of_ofDatum? hm'

theorem isFinite_of_ofDatum? {e' : Entry} (h : ofDatum? e.toDatum.settled = some e') :
    ∀ x ∈ e.toDatum.reals, x.isFinite := by
  simp only [ofDatum?, toDatum_eq, Datum.settled_table, List.map_cons, Datum.record?,
    Option.bind_eq_bind, Option.bind_some, Option.bind_eq_some_iff] at h
  obtain ⟨-, -, -, -, -, -, score, hscore, params, hparams, -⟩ := h
  rw [reals_toDatum, List.forall_mem_cons]
  constructor
  · exact Datum.real?_settled (by simpa using hscore)
  · exact isFinite_of_optional?_params (by simpa using hparams)

end Entry

end CovarianceSearch
