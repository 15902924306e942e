import CovarianceSearch.Proofs.Table
import CovarianceSearch.Table.Indexed

namespace CovarianceSearch

def Entry.Becomes (e e' : Entry) : Prop :=
  e' = e ∨ e.evaluated = false ∧ ∃ score params, e' = e.scored score params

theorem Entry.Becomes.trans {e e' e'' : Entry} (h : e.Becomes e') (h' : e'.Becomes e'') :
    e.Becomes e'' ∧ (e' = e ∨ e'' = e') := by
  rcases h with rfl | ⟨he, score, params, rfl⟩
  · exact ⟨h', .inl rfl⟩
  · rcases h' with rfl | ⟨hscored, -⟩
    · exact ⟨.inr ⟨he, score, params, rfl⟩, .inr rfl⟩
    · cases hscored

theorem getElem?_concat_eq_some_iff {α : Type} {as : List α} {a b : α} {i : Nat} :
    (as ++ [a])[i]? = some b ↔ as[i]? = some b ∨ i = as.length ∧ b = a := by
  grind

theorem Table.record_of_find? {t : Table} {key : String} {e : Entry} (h : t.find? key = some e)
    (score : Float) (params : Option Assignment) : t.record key score params =
      if e.evaluated then (t, false)
      else (⟨t.entries.map fun b ↦ if b.key = key then b.scored score params else b⟩, true) := by
  obtain ⟨_, _, _, _, _, _, evaluated⟩ := e
  rw [record, h]
  cases evaluated <;> rfl

namespace TableCall

def Accepts (entries : List Entry) : TableCall → Prop
  | .insert e => e.key ∉ entries.map (·.key)
  | .record key _ _ => ∃ e ∈ entries, e.key = key ∧ e.evaluated = false

def entriesAfter (entries : List Entry) : TableCall → List Entry
  | .insert e => entries ++ [e]
  | .record key score params =>
    entries.map fun e ↦ if e.key = key then e.scored score params else e

def applyToTable (t : Table) : TableCall → Table × Bool
  | .insert e => t.insert e
  | .record key score params => t.record key score params

end TableCall

namespace IndexedTable

variable {t t' t'' : IndexedTable}

/-- The index maps each key to the position of its entry, and nothing else. -/
def InStep (t : IndexedTable) : Prop :=
  ∀ (key : String) (i : Nat), t.position? key = some i ↔ t.keys[i]? = some key

/-- Every entry stays where it is, and is scored once at most. -/
def Extends (t t' : IndexedTable) : Prop :=
  ∀ (i : Nat) (e : Entry), t.entries[i]? = some e → ∃ e', t'.entries[i]? = some e' ∧ e.Becomes e'

theorem Extends.refl (t : IndexedTable) : t.Extends t := fun _ e h ↦ ⟨e, h, .inl rfl⟩

theorem Extends.trans (h : t.Extends t') (h' : t'.Extends t'') : t.Extends t'' := by
  intro i e he
  obtain ⟨e', he', hbecomes⟩ := h i e he
  obtain ⟨e'', he'', hbecomes'⟩ := h' i e' he'
  exact ⟨e'', he'', (hbecomes.trans hbecomes').1⟩

theorem inStep_empty : empty.InStep := by
  intro key i
  simp [empty, position?, keys]

namespace InStep

variable {key : String} {score : Float} {params : Option Assignment}

theorem keys_nodup (h : t.InStep) : t.keys.Nodup := by
  rw [List.nodup_iff_getElem?_ne_getElem?]
  intro i j hij hj heq
  have hsome := List.getElem?_eq_getElem hj
  have hi := (h t.keys[j] i).2 (heq.trans hsome)
  rw [(h t.keys[j] j).2 hsome] at hi
  cases hi
  exact absurd hij (Nat.lt_irrefl _)

theorem contains_iff (h : t.InStep) : t.contains key = true ↔ key ∈ t.keys := by
  rw [contains, Option.isSome_iff_exists, List.mem_iff_getElem?]
  exact exists_congr fun i ↦ h key i

theorem exists_entry (h : t.InStep) {i : Nat} (hi : t.position? key = some i) :
    ∃ e, t.entries[i]? = some e ∧ e.key = key := by
  have hkey := (h key i).1 hi
  rw [keys, List.getElem?_map] at hkey
  exact Option.map_eq_some_iff.1 hkey

theorem position?_of_entry (h : t.InStep) {i : Nat} {e : Entry} (hi : t.entries[i]? = some e) :
    t.position? e.key = some i := by
  rw [h, keys, List.getElem?_map, hi]
  rfl

theorem eq_of_key_eq (h : t.InStep) {i : Nat} {e e' : Entry} (hi : t.entries[i]? = some e)
    (he' : e' ∈ t.entries) (hkey : e'.key = e.key) : e' = e := by
  obtain ⟨j, hj⟩ := List.mem_iff_getElem?.1 he'
  have hsame := h.position?_of_entry hj
  rw [hkey, h.position?_of_entry hi] at hsame
  cases hsame
  exact Option.some_inj.1 (hj.symm.trans hi)

theorem of_keys_eq (h : t.InStep) (hindex : t'.index = t.index) (hkeys : t'.keys = t.keys) :
    t'.InStep := by
  intro key i
  rw [hkeys, position?, hindex]
  exact h key i

theorem append (h : t.InStep) {e : Entry} (hkey : e.key ∉ t.keys) :
    InStep ⟨t.entries ++ [e], (e.key, t.entries.length) :: t.index⟩ := by
  intro key i
  have hlength : t.keys.length = t.entries.length := List.length_map _
  have hkeys : IndexedTable.keys ⟨t.entries ++ [e], (e.key, t.entries.length) :: t.index⟩ =
      t.keys ++ [e.key] := by simp [keys]
  have hposition : position? ⟨t.entries ++ [e], (e.key, t.entries.length) :: t.index⟩ key =
      if key = e.key then some t.entries.length else t.position? key := by
    rw [position?, List.lookup_cons]
    split <;> simp_all [position?]
  rw [hkeys, hposition, getElem?_concat_eq_some_iff, hlength]
  by_cases hnew : key = e.key
  · have hold : t.keys[i]? ≠ some key := fun hi ↦ hkey (hnew ▸ List.mem_of_getElem? hi)
    rw [if_pos hnew, Option.some_inj, or_iff_right hold, and_iff_left hnew, eq_comm]
  · rw [if_neg hnew, h key i, or_iff_left fun hlast ↦ hnew hlast.2]

/-- In a table that is in step only the entry at the position of a key has it. -/
theorem map_scored_eq_set (h : t.InStep) {i : Nat} {e : Entry} (hi : t.entries[i]? = some e)
    (score : Float) (params : Option Assignment) :
    (t.entries.map fun b ↦ if b.key = e.key then b.scored score params else b) =
      t.entries.set i (e.scored score params) := by
  refine List.ext_getElem? fun j ↦ ?_
  rw [List.getElem?_map, List.getElem?_set]
  by_cases hij : i = j
  · subst hij
    have hlength : i < t.entries.length := (List.getElem?_eq_some_iff.1 hi).1
    rw [hi, if_pos rfl, if_pos hlength, Option.map_some, if_pos rfl]
  · rw [if_neg hij]
    cases hj : t.entries[j]? with
    | none => rfl
    | some b =>
      have hne : b.key ≠ e.key := by
        intro hkey
        have hsame := h.position?_of_entry hj
        rw [hkey, h.position?_of_entry hi] at hsame
        exact hij (Option.some_inj.1 hsame)
      rw [Option.map_some, if_neg hne]

end InStep

theorem keys_set {i : Nat} {e e' : Entry} (hi : t.entries[i]? = some e) (hkey : e'.key = e.key) :
    (t.entries.set i e').map (·.key) = t.keys := by
  refine List.ext_getElem? fun j ↦ ?_
  rw [keys, List.getElem?_map, List.getElem?_map, List.getElem?_set]
  by_cases hij : i = j
  · subst hij
    have hlength : i < t.entries.length := (List.getElem?_eq_some_iff.1 hi).1
    rw [if_pos rfl, if_pos hlength, hi, Option.map_some, Option.map_some, hkey]
  · rw [if_neg hij]

theorem extends_append (t : IndexedTable) (e : Entry) (index : List (String × Nat)) :
    t.Extends ⟨t.entries ++ [e], index⟩ := by
  intro i e' he'
  exact ⟨e', getElem?_concat_eq_some_iff.2 (.inl he'), .inl rfl⟩

theorem extends_set {i : Nat} {e e' : Entry} (hi : t.entries[i]? = some e) (he : e.Becomes e') :
    t.Extends { t with entries := t.entries.set i e' } := by
  intro j b hj
  rw [List.getElem?_set]
  by_cases hij : i = j
  · subst hij
    rw [hi] at hj
    cases hj
    exact ⟨e', by rw [if_pos rfl, if_pos (List.getElem?_eq_some_iff.1 hi).1], he⟩
  · exact ⟨b, by rw [if_neg hij, hj], .inl rfl⟩

structure Answers (call : TableCall) (t t' : IndexedTable) (done : Bool) : Prop where
  inStep : t'.InStep
  grows : t.Extends t'
  done_iff : done = true ↔ call.Accepts t.entries
  accepted : done = true → t'.entries = call.entriesAfter t.entries
  refused : done = false → t' = t
  table : call.applyToTable t.toTable = (t'.toTable, done)

theorem InStep.not_mem_of_position? (h : t.InStep) {key : String} (hnone : t.position? key = none) :
    key ∉ t.keys := by
  intro hmem
  have hsome := h.contains_iff.2 hmem
  rw [contains, hnone] at hsome
  cases hsome

theorem InStep.answers_refused (h : t.InStep) {call : TableCall}
    (hrefused : ¬ call.Accepts t.entries)
    (htable : call.applyToTable t.toTable = (t.toTable, false)) : Answers call t t false := by
  constructor
  case inStep => exact h
  case grows => exact .refl t
  case done_iff => exact iff_of_false Bool.false_ne_true hrefused
  case accepted => intro hdone; cases hdone
  case refused => intro _; rfl
  case table => exact htable

theorem InStep.answers_insert (h : t.InStep) (e : Entry) :
    Answers (.insert e) t (t.insert e).1 (t.insert e).2 := by
  have htable : t.toTable.contains e.key = t.contains e.key :=
    Bool.eq_iff_iff.2 (Table.contains_iff.trans h.contains_iff.symm)
  by_cases hkey : t.contains e.key = true
  · have hinsert : t.insert e = (t, false) := if_pos hkey
    have hmem : e.key ∈ t.keys := h.contains_iff.1 hkey
    rw [hinsert]
    exact h.answers_refused (not_not.2 hmem) (if_pos (htable.trans hkey))
  · have hinsert : t.insert e = (⟨t.entries ++ [e], (e.key, t.entries.length) :: t.index⟩, true) :=
      if_neg hkey
    have hmem : e.key ∉ t.keys := mt h.contains_iff.2 hkey
    rw [hinsert]
    constructor
    case inStep => exact h.append hmem
    case grows => exact extends_append t e _
    case done_iff => simpa [TableCall.Accepts, keys] using hmem
    case accepted => intro _; rfl
    case refused => intro hdone; cases hdone
    case table => exact if_neg (htable ▸ hkey)

theorem InStep.find?_eq (h : t.InStep) (key : String) : t.find? key = t.toTable.find? key := by
  symm
  rw [find?]
  cases hposition : t.position? key with
  | none =>
    refine List.find?_eq_none.2 fun e he ↦ ?_
    have hkey := h.not_mem_of_position? hposition
    simpa using fun hsame ↦ hkey (List.mem_map.2 ⟨e, he, hsame⟩)
  | some i =>
    obtain ⟨e, hi, hkey⟩ := h.exists_entry hposition
    obtain ⟨hlength, hget⟩ := List.getElem?_eq_some_iff.1 hi
    rw [Option.bind_some, hi]
    refine List.find?_eq_some_iff_getElem.2 ⟨by simpa using hkey, i, hlength, hget, fun j hj ↦ ?_⟩
    have hlength' : j < t.entries.length := Nat.lt_trans hj hlength
    have hother := h.position?_of_entry (List.getElem?_eq_getElem hlength')
    have hne : t.toTable.entries[j].key ≠ key := by
      intro hsame
      rw [show t.entries[j].key = key from hsame, hposition] at hother
      exact absurd (Option.some_inj.1 hother) (Nat.ne_of_gt hj)
    rw [Bool.not_eq_true', decide_eq_false_iff_not]
    exact hne

theorem InStep.answers_record (h : t.InStep) (key : String) (score : Float)
    (params : Option Assignment) :
    ∃ t' done, t.record key score params = some (t', done) ∧
      Answers (.record key score params) t t' done := by
  have hfind := h.find?_eq key
  rw [record]
  rw [find?] at hfind
  cases hposition : t.position? key with
  | none =>
    have hkey := h.not_mem_of_position? hposition
    rw [hposition, Option.bind_none] at hfind
    refine ⟨t, false, rfl, h.answers_refused ?_ ?_⟩
    · rintro ⟨e, he, hsame, -⟩
      exact hkey (List.mem_map.2 ⟨e, he, hsame⟩)
    · rw [TableCall.applyToTable, Table.record, ← hfind]
  | some i =>
    obtain ⟨e, hi, rfl⟩ := h.exists_entry hposition
    rw [hposition, Option.bind_some, hi] at hfind
    have hmem : e ∈ t.entries := List.mem_of_getElem? hi
    dsimp only
    rw [hi, Option.bind_eq_bind, Option.bind_some]
    have htable := Table.record_of_find? hfind.symm score params
    cases hscored : e.evaluated with
    | true =>
      refine ⟨t, false, rfl, h.answers_refused ?_ ?_⟩
      · rintro ⟨e', he', hkey, hunscored⟩
        rw [h.eq_of_key_eq hi he' hkey, hscored] at hunscored
        cases hunscored
      · rw [TableCall.applyToTable, htable, hscored, if_pos rfl]
    | false =>
      have hset := h.map_scored_eq_set hi score params
      refine ⟨{ t with entries := t.entries.set i (e.scored score params) }, true, rfl, ?_⟩
      constructor
      case inStep => exact h.of_keys_eq rfl (keys_set hi rfl)
      case grows => exact extends_set hi (.inr ⟨hscored, score, params, rfl⟩)
      case done_iff => exact iff_of_true rfl ⟨e, hmem, rfl, hscored⟩
      case accepted => intro _; exact hset.symm
      case refused => intro hdone; cases hdone
      case table =>
        rw [TableCall.applyToTable, htable, hscored, if_neg Bool.false_ne_true]
        exact congrArg (fun entries ↦ (Table.mk entries, true)) hset

theorem InStep.exists_answer (h : t.InStep) (call : TableCall) :
    ∃ t' done, call.apply t = some (t', done) ∧ Answers call t t' done := by
  cases call with
  | insert e => exact ⟨_, _, rfl, h.answers_insert e⟩
  | record key score params => exact h.answers_record key score params

theorem InStep.exists_run (h : t.InStep) (calls : List TableCall) :
    ∃ t', t.run calls = some t' ∧ t'.InStep ∧ t.Extends t' := by
  induction calls generalizing t with
  | nil => exact ⟨t, rfl, h, .refl t⟩
  | cons call calls ih =>
    obtain ⟨t', done, happly, hanswers⟩ := h.exists_answer call
    obtain ⟨t'', hrun, hinStep, hgrows⟩ := ih hanswers.inStep
    refine ⟨t'', ?_, hinStep, hanswers.grows.trans hgrows⟩
    rw [run, List.foldlM_cons, happly]
    exact hrun

/-- Whatever calls are made of an empty table, keys and index stay in step. A further call is
answered by whether it is accepted, and changes nothing if it is not. Entries stay what and where
they are, but for being scored, which happens to each of them once at most. -/
theorem run_keeps_in_step (calls : List TableCall) : ∃ t, empty.run calls = some t ∧
    t.keys.Nodup ∧ (∀ key i, t.position? key = some i ↔ t.keys[i]? = some key) ∧
    (∀ call : TableCall, ∃ t' done, call.apply t = some (t', done) ∧
      (done = true ↔ call.Accepts t.entries) ∧
      (done = true → t'.entries = call.entriesAfter t.entries) ∧
      (done = false → t' = t) ∧
      call.applyToTable t.toTable = (t'.toTable, done)) ∧
    ∀ later, ∃ t', t.run later = some t' ∧ t.Extends t' ∧
      ∀ latest, ∃ t'', t'.run latest = some t'' ∧ t'.Extends t'' ∧
        ∀ i < t.entries.length,
          t'.entries[i]? = t.entries[i]? ∨ t''.entries[i]? = t'.entries[i]? := by
  obtain ⟨t, hrun, hinStep, -⟩ := inStep_empty.exists_run calls
  refine ⟨t, hrun, hinStep.keys_nodup, hinStep, fun call ↦ ?_, fun later ↦ ?_⟩
  · obtain ⟨t', done, happly, hanswers⟩ := hinStep.exists_answer call
    exact ⟨t', done, happly, hanswers.done_iff, hanswers.accepted, hanswers.refused,
      hanswers.table⟩
  · obtain ⟨t', hlater, hinStep', hgrows⟩ := hinStep.exists_run later
    refine ⟨t', hlater, hgrows, fun latest ↦ ?_⟩
    obtain ⟨t'', hlatest, -, hgrows'⟩ := hinStep'.exists_run latest
    refine ⟨t'', hlatest, hgrows', fun i hi ↦ ?_⟩
    have hentry := List.getElem?_eq_getElem hi
    obtain ⟨e', he', hbecomes⟩ := hgrows i _ hentry
    obtain ⟨e'', he'', hbecomes'⟩ := hgrows' i e' he'
    rw [hentry, he', he'', Option.some_inj, Option.some_inj]
    exact (hbecomes.trans hbecomes').2

end IndexedTable

end CovarianceSearch
