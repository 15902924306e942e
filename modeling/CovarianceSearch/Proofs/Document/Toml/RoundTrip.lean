import CovarianceSearch.Document.Reader
import CovarianceSearch.Proofs.Document.Toml.Value

namespace CovarianceSearch.Toml

open Decimal Document

section

variable {key name : String} {cs rest : List Char} {c : Char}

def IsBareKey (key : String) : Prop := key.toList ≠ [] ∧ ∀ c ∈ key.toList, isBare c

theorem isBareKey_of_isKey (h : IsKey key) : IsBareKey key := by
  refine ⟨h.1, fun c hc ↦ ?_⟩
  obtain halphanum | rfl := h.2 c hc
  · simp [isBare, halphanum]
  · rfl

theorem skipSpaces_cons (h : isSpace c = false) : skipSpaces (c :: cs) = c :: cs :=
  List.dropWhile_cons_of_neg (Bool.eq_false_iff.1 h)

theorem notMem_of_isBare (h : isBare c) : c ∉ [' ', '\t', '\n', '\r', '#'] := by
  have hall : ∀ c ∈ [' ', '\t', '\n', '\r', '#'], isBare c = false := by
    simp [isBare, Char.isAlphanum, Char.isAlpha]
  intro hmem
  rw [hall c hmem] at h
  cases h

theorem IsBareKey.exists_cons (h : IsBareKey key) :
    ∃ c tail, key.toList = c :: tail ∧ isBare c := by
  obtain ⟨c, tail, hcons⟩ := List.exists_cons_of_ne_nil h.1
  exact ⟨c, tail, hcons, h.2 c (by simp [hcons])⟩

theorem IsBareKey.append_ne_cons (h : IsBareKey key) (hc : isBare c = false)
    (rest tail : List Char) : key.toList ++ rest ≠ c :: tail := by
  obtain ⟨d, cs, hcons, hd⟩ := h.exists_cons
  intro heq
  rw [hcons] at heq
  rw [(List.cons.inj heq).1, hc] at hd
  cases hd

theorem IsBareKey.skipSpaces_eq (h : IsBareKey key) (rest : List Char) :
    skipSpaces (key.toList ++ rest) = key.toList ++ rest := by
  obtain ⟨c, tail, hcons, hc⟩ := h.exists_cons
  have hblank := notMem_of_isBare hc
  simp only [List.mem_cons, not_or] at hblank
  rw [hcons]
  exact skipSpaces_cons (by simp [isSpace, hblank.1, hblank.2.1])

theorem IsBareKey.skipFiller_eq (h : IsBareKey key) (rest : List Char) :
    skipFiller false (key.toList ++ rest) = key.toList ++ rest := by
  obtain ⟨c, tail, hcons, hc⟩ := h.exists_cons
  rw [hcons]
  exact skipFiller_cons (notMem_of_isBare hc)

theorem IsValueText.skipSpaces_eq {d : Datum} {text : String} (h : IsValueText d text)
    (rest : List Char) : skipSpaces (' ' :: (text.toList ++ rest)) = text.toList ++ rest := by
  obtain ⟨c, hc, hblank⟩ := h.head
  obtain ⟨cs, hcs⟩ := List.head?_eq_some_iff.1 hc
  rw [hcs]
  exact skipSpaces_cons hblank

theorem readKey_bare (t : Dialect) (h : IsBareKey key)
    (hrest : ∀ c ∈ rest.head?, isBare c = false) :
    readKey t (key.toList ++ rest) = some (key, rest) := by
  unfold readKey
  split
  · next heq => exact absurd heq (h.append_ne_cons (by decide) _ _)
  · next heq => exact absurd heq (h.append_ne_cons (by decide) _ _)
  · rw [takeWhile_append_eq h.2 hrest, dropWhile_append_eq h.2 hrest, if_neg, String.ofList_toList]
    simpa using h.1

theorem readPath_bare (h : IsBareKey key) (hrest : ∀ c ∈ rest.head?, isBare c = false)
    (hpoint : ∀ tail, skipSpaces rest ≠ '.' :: tail) :
    readPath .strict (key.toList ++ rest) = some ([key], skipSpaces rest) := by
  change readKeys .strict (78 + 1) _ = _
  rw [readKeys, h.skipSpaces_eq, readKey_bare .strict h hrest, Option.bind_eq_bind,
    Option.bind_some]
  dsimp only
  split
  · next heq => exact absurd heq (hpoint _)
  · rfl

theorem readHeader_bare (h : IsBareKey name) :
    readHeader .strict (name.toList ++ ']' :: cs) = some (false, [name], cs) := by
  have hpath : readPath .strict (name.toList ++ ']' :: cs) = some ([name], ']' :: cs) :=
    readPath_bare h (by simp [isBare]) (by simp [skipSpaces, isSpace])
  unfold readHeader
  split
  · next heq => exact absurd heq (h.append_ne_cons (by decide) _ _)
  · rw [hpath]
    rfl

end

namespace Branches

variable {name key : String} {b before inner : Branches} {d : Datum}

theorem lookup_append_self (h : name ∉ before.map (·.1)) (o : Outline) :
    (before ++ [(name, o)]).lookup name = some o := by
  rw [List.lookup_append, Datum.lookup_eq_none_of_notMem h, Option.none_or, List.lookup_cons_self]

theorem addHeader?_of_notMem (h : name ∉ b.map (·.1)) :
    b.addHeader? false [name] = some (b ++ [(name, .table .header [])]) := by
  simp [addHeader?, within?, openTable?, Datum.lookup_eq_none_of_notMem h,
    Datum.setField_of_notMem h]

theorem addAlong?_of_notMem (h : key ∉ inner.map (·.1)) (d : Datum) :
    inner.addAlong? false [key] d = some (inner ++ [(key, .value d)]) := by
  simp [addAlong?, within?, addValue?, Datum.lookup_eq_none_of_notMem h]

theorem addBelow?_last (hname : name ∉ before.map (·.1)) (hkey : key ∉ inner.map (·.1)) :
    addBelow? false [name] [key] d (before ++ [(name, .table .header inner)]) =
      some (before ++ [(name, .table .header (inner ++ [(key, .value d)]))]) := by
  simp [addBelow?, within?, lookup_append_self hname, addAlong?_of_notMem hkey,
    Datum.setField_append_self hname]

end Branches

/-- Where a reader of a document stands: below a header, with what it has read and what is left. -/
structure Position where
  header : List String
  branches : Branches
  rest : List Char

namespace Position

/-- Reading goes on from the second position, with enough lines left to its bound. -/
def Leads (p q : Position) : Prop :=
  ∀ bound, p.rest.length + 1 ≤ bound → ∃ bound', q.rest.length + 1 ≤ bound' ∧
    readLines .strict bound p.header p.branches p.rest =
      readLines .strict bound' q.header q.branches q.rest

variable {p q r : Position} {header : List String} {b before inner : Branches}
  {name key text : String} {cs : List Char} {d : Datum}

theorem Leads.refl (p : Position) : p.Leads p := fun bound hbound ↦ ⟨bound, hbound, rfl⟩

theorem Leads.trans (hpq : p.Leads q) (hqr : q.Leads r) : p.Leads r := by
  intro bound hbound
  obtain ⟨bound', hbound', hpq⟩ := hpq bound hbound
  obtain ⟨bound'', hbound'', hqr⟩ := hqr bound' hbound'
  exact ⟨bound'', hbound'', hpq.trans hqr⟩

theorem leads_line : Leads ⟨header, b, '\n' :: cs⟩ ⟨header, b, cs⟩ := by
  intro bound hbound
  dsimp only [List.length_cons] at hbound ⊢
  obtain ⟨bound, rfl⟩ : ∃ b, bound = b + 1 := ⟨bound - 1, by omega⟩
  exact ⟨bound + 1, by omega, by rw [readLines, readLines, skipFiller_line]⟩

theorem leads_header (header : List String) (cs : List Char) (hbare : IsBareKey name)
    (hname : name ∉ b.map (·.1)) :
    Leads ⟨header, b, '[' :: (name.toList ++ ']' :: '\n' :: cs)⟩
      ⟨[name], b ++ [(name, .table .header [])], cs⟩ := by
  intro bound hbound
  simp only [List.length_cons, List.length_append] at hbound ⊢
  obtain ⟨bound, rfl⟩ : ∃ b, bound = b + 1 := ⟨bound - 1, by omega⟩
  refine ⟨bound, by omega, ?_⟩
  rw [readLines, skipFiller_cons (by decide)]
  change (readHeader .strict _).bind _ = _
  rw [readHeader_bare hbare, Option.bind_some]
  change (b.addHeader? false [name]).bind _ = _
  rw [Branches.addHeader?_of_notMem hname]
  rfl

theorem leads_field (cs : List Char) (hname : name ∉ before.map (·.1)) (hbare : IsBareKey key)
    (hkey : key ∉ inner.map (·.1)) (hd : IsValueText d text) :
    Leads ⟨[name], before ++ [(name, .table .header inner)],
        key.toList ++ ' ' :: '=' :: ' ' :: (text.toList ++ '\n' :: cs)⟩
      ⟨[name], before ++ [(name, .table .header (inner ++ [(key, .value d)]))], cs⟩ := by
  intro bound hbound
  simp only [List.length_cons, List.length_append] at hbound ⊢
  obtain ⟨bound, rfl⟩ : ∃ b, bound = b + 1 := ⟨bound - 1, by omega⟩
  refine ⟨bound, by omega, ?_⟩
  have hread := hd.read bound ('\n' :: cs) (by omega) ⟨'\n', rfl, .inl rfl⟩
  have hpath : readPath .strict (key.toList ++ ' ' :: '=' :: ' ' :: (text.toList ++ '\n' :: cs)) =
      some ([key], '=' :: ' ' :: (text.toList ++ '\n' :: cs)) :=
    readPath_bare hbare (by simp [isBare]) (by simp [skipSpaces, isSpace])
  rw [readLines, hbare.skipFiller_eq]
  split
  · next heq => exact absurd heq (by simp)
  · next heq => exact absurd heq (hbare.append_ne_cons (by decide) _ _)
  · rw [hpath]
    change (readValue .strict bound Dialect.strict.nesting (skipSpaces _)).bind _ = _
    rw [hd.skipSpaces_eq, hread, Option.bind_some]
    change (Branches.addBelow? false [name] [key] d _).bind _ = _
    rw [Branches.addBelow?_last hname hkey]
    rfl

end Position

def valueBranches (fields : Fields) : Branches :=
  fields.map fun field ↦ (field.1, .value field.2)

section

variable {key name : String} {d : Datum} {fields : Fields} {before inner : Branches}
  {cs : List Char}

theorem line?_of_text {text : String} (htext : value? d = some text) (hnull : d.isNull = false) :
    line? (key, d) = some (key ++ " = " ++ text ++ "\n") := by
  cases d with
  | null => cases hnull
  | _ => simp [line?, htext]

theorem isNull_of_isValue (h : IsValue d) : d.isNull = false := by
  cases d <;> first | rfl | cases h

theorem exists_lines (hname : name ∉ before.map (·.1)) (h : IsSection fields) :
    ∃ lines, fields.mapM line? = some lines ∧ ∀ inner cs,
      (∀ field ∈ fields, field.1 ∉ inner.map (·.1)) →
        Position.Leads
          ⟨[name], before ++ [(name, .table .header inner)], (String.join lines).toList ++ cs⟩
          ⟨[name], before ++ [(name, .table .header (inner ++ valueBranches fields))], cs⟩ := by
  induction fields with
  | nil =>
    refine ⟨[], rfl, fun inner cs _ ↦ ?_⟩
    simpa [valueBranches] using Position.Leads.refl _
  | cons field fields ih =>
    obtain ⟨key, d⟩ := field
    obtain ⟨lines, hlines, hleads⟩ := ih h.tail
    have hvalue : IsValue d := h.isValue (key, d) List.mem_cons_self
    obtain ⟨text, htext, hread⟩ := exists_isValueText hvalue
    have hline : line? (key, d) = some (key ++ " = " ++ text ++ "\n") :=
      line?_of_text htext (isNull_of_isValue hvalue)
    refine ⟨_, Datum.mapM_cons_eq_some hline hlines, fun inner cs hnew ↦ ?_⟩
    have hfield := Position.leads_field ((String.join lines).toList ++ cs) hname
      (isBareKey_of_isKey (h.isKey _ List.mem_cons_self)) (hnew (key, d) List.mem_cons_self) hread
    have htail := hleads (inner ++ [(key, .value d)]) cs fun field hfield ↦ by
      have hother : field.1 ≠ key := fun heq ↦
        (List.nodup_cons.1 h.nodup).1 (List.mem_map.2 ⟨field, hfield, heq⟩)
      simpa [hother] using hnew field (List.mem_cons_of_mem _ hfield)
    have hall := hfield.trans htail
    simpa [valueBranches] using hall

theorem exists_section (hname : name ∉ before.map (·.1)) (hbare : IsBareKey name)
    (h : IsSection fields) :
    ∃ text, section? (name, .table fields) = some text ∧ ∀ header cs,
      Position.Leads ⟨header, before, text.toList ++ cs⟩
        ⟨[name], before ++ [(name, .table .header (valueBranches fields))], cs⟩ := by
  obtain ⟨lines, hlines, hleads⟩ := exists_lines hname h
  refine ⟨_, by rw [section?, hlines]; rfl, fun header cs ↦ ?_⟩
  have hheader := Position.leads_header header ((String.join lines).toList ++ cs) hbare hname
  have hall := hheader.trans (hleads [] cs (by simp))
  simpa using hall

variable {sections : List (String × Fields)}

def sectionBranches (sections : List (String × Fields)) : Branches :=
  sections.map fun s ↦ (s.1, .table .header (valueBranches s.2))

/-- The sections, each behind an empty line, lead to all of their tables. -/
theorem exists_sections (before : Branches) (h : AreSections sections)
    (hnew : ∀ s ∈ sections, s.1 ∉ before.map (·.1)) :
    ∃ texts, (sections.map fun s ↦ (s.1, Datum.table s.2)).mapM section? = some texts ∧
      ∀ header, ∃ header', Position.Leads ⟨header, before, texts.flatMap ('\n' :: ·.toList)⟩
        ⟨header', before ++ sectionBranches sections, []⟩ := by
  induction sections generalizing before with
  | nil =>
    refine ⟨[], rfl, fun header ↦ ⟨header, ?_⟩⟩
    simpa [sectionBranches] using Position.Leads.refl _
  | cons s sections ih =>
    obtain ⟨name, fields⟩ := s
    obtain ⟨text, htext, hleads⟩ := exists_section (hnew _ List.mem_cons_self)
      (isBareKey_of_isKey (h.isKey _ List.mem_cons_self)) (h.isSection _ List.mem_cons_self)
    obtain ⟨texts, htexts, hrest⟩ :=
      ih (before ++ [(name, .table .header (valueBranches fields))]) h.tail
        fun s hs ↦ by
          have hother : s.1 ≠ name := fun heq ↦
            (List.nodup_cons.1 h.nodup).1 (List.mem_map.2 ⟨s, hs, heq⟩)
          simpa [hother] using hnew s (List.mem_cons_of_mem _ hs)
    refine ⟨text :: texts, Datum.mapM_cons_eq_some htext htexts, fun header ↦ ?_⟩
    obtain ⟨header', hrest⟩ := hrest [name]
    refine ⟨header', ?_⟩
    have hall := Position.leads_line.trans ((hleads header _).trans hrest)
    simpa [sectionBranches] using hall

theorem fieldData_valueBranches (fields : Fields) :
    Outline.fieldData (valueBranches fields) = fields := by
  induction fields with
  | nil => rfl
  | cons field fields ih =>
    obtain ⟨key, d⟩ := field
    rw [valueBranches] at ih ⊢
    rw [List.map_cons, Outline.fieldData, ih, Outline.toDatum]

theorem toDatum_sectionBranches (sections : List (String × Fields)) :
    (sectionBranches sections).toDatum = ofSections sections := by
  rw [Branches.toDatum, ofSections, sectionBranches]
  congr 1
  induction sections with
  | nil => rfl
  | cons s sections ih =>
    rw [List.map_cons, List.map_cons, Outline.fieldData, ih, Outline.toDatum,
      fieldData_valueBranches]

theorem toList_intercalate_cons (text : String) (texts : List String) :
    ("\n".intercalate (text :: texts)).toList =
      text.toList ++ texts.flatMap ('\n' :: ·.toList) := by
  rw [String.toList_intercalate]
  induction texts generalizing text with
  | nil => simp
  | cons next texts ih =>
    rw [List.map_cons, List.map_cons, List.intercalate_cons_cons, ← List.map_cons, ih,
      List.flatMap_cons]
    simp

theorem exists_toList_section {s : String × Datum} {text : String} (h : section? s = some text) :
    ∃ tail, text.toList = '[' :: tail := by
  unfold section? at h
  split at h
  · next name fields =>
    obtain ⟨lines, -, rfl⟩ := Option.map_eq_some_iff.1 h
    exact ⟨_, by simp; rfl⟩
  · cases h

theorem readLines_intercalate {sectionData : List (String × Datum)} {texts : List String}
    (h : sectionData.mapM section? = some texts) (t : Dialect) (bound : ℕ) (header : List String)
    (b : Branches) :
    readLines t (bound + 1) header b (Text.skipMark ("\n".intercalate texts).toList) =
      readLines t (bound + 1) header b (texts.flatMap ('\n' :: ·.toList)) := by
  cases sectionData with
  | nil =>
    cases h
    rfl
  | cons s sectionData =>
    rw [List.mapM_cons] at h
    obtain ⟨text, htext, h⟩ := Option.bind_eq_some_iff.1 h
    obtain ⟨texts, -, h⟩ := Option.bind_eq_some_iff.1 h
    cases h
    obtain ⟨tail, htail⟩ := exists_toList_section htext
    rw [toList_intercalate_cons, htail, List.cons_append, Text.skipMark, if_neg (by decide),
      List.flatMap_cons, htail, readLines, readLines, List.cons_append, skipFiller_line]
    rfl

theorem exists_write? (h : AreSections sections) :
    ∃ text, write? (ofSections sections) = some text ∧
      read? .strict text = some (ofSections sections) := by
  obtain ⟨texts, htexts, hleads⟩ := exists_sections [] h (by simp)
  refine ⟨"\n".intercalate texts, by rw [ofSections, write?, htexts]; rfl, ?_⟩
  obtain ⟨header, hleads⟩ := hleads []
  have hbound : (texts.flatMap ('\n' :: ·.toList)).length + 1 ≤
      2 * ("\n".intercalate texts).length + 1 + 1 := by
    cases texts with
    | nil => simp
    | cons text texts =>
      rw [← String.length_toList, toList_intercalate_cons]
      simp only [List.flatMap_cons, List.length_append, List.length_cons]
      omega
  obtain ⟨bound', hbound', heq⟩ := hleads _ hbound
  obtain ⟨bound', rfl⟩ := Nat.exists_eq_add_of_le' (le_trans (Nat.le_add_left 1 _) hbound')
  dsimp only at heq
  rw [read?, readLines_intercalate htexts, heq, readLines, skipFiller]
  rw [List.nil_append, Option.map_some, toDatum_sectionBranches]

theorem write?_eq_none {s : String × Fields} {i : ℤ} (hs : s ∈ sections)
    (hfield : (key, .integer i) ∈ s.2) (hi : fitsWord i = false) :
    write? (ofSections sections) = none := by
  have hline : line? (key, .integer i) = none := by simp [line?, value?, scalar?, hi]
  rw [Option.eq_none_iff_forall_ne_some]
  intro text htext
  rw [ofSections, write?] at htext
  obtain ⟨texts, htexts, -⟩ := Option.map_eq_some_iff.1 htext
  have hmem : (s.1, Datum.table s.2) ∈ sections.map fun s ↦ (s.1, Datum.table s.2) :=
    List.mem_map_of_mem hs
  obtain ⟨sectionText, hsection⟩ := Datum.exists_of_mapM_eq_some htexts _ hmem
  rw [section?] at hsection
  obtain ⟨lines, hlines, -⟩ := Option.map_eq_some_iff.1 hsection
  obtain ⟨lineText, hlineText⟩ := Datum.exists_of_mapM_eq_some hlines _ hfield
  rw [hline] at hlineText
  cases hlineText

theorem join_lines_written (fields : Fields) :
    ((written fields).mapM line?).map String.join = (fields.mapM line?).map String.join := by
  induction fields with
  | nil => rfl
  | cons field fields ih =>
    obtain ⟨key, d⟩ := field
    cases hnull : d.isNull with
    | true =>
      have hline : line? (key, d) = some "" := by
        cases d <;> first | rfl | cases hnull
      have hwritten : written ((key, d) :: fields) = written fields := by simp [written, hnull]
      rw [hwritten, ih, List.mapM_cons, hline]
      cases fields.mapM line? with
      | none => rfl
      | some lines => simp
    | false =>
      have hwritten : written ((key, d) :: fields) = (key, d) :: written fields := by
        simp [written, hnull]
      rw [hwritten, List.mapM_cons, List.mapM_cons]
      cases line? (key, d) with
      | none => rfl
      | some line =>
        cases hfields : fields.mapM line? with
        | none =>
          rw [hfields, Option.map_none, Option.map_eq_none_iff] at ih
          rw [ih]
        | some lines =>
          rw [hfields, Option.map_some] at ih
          obtain ⟨lines', hlines', hjoin⟩ := Option.map_eq_some_iff.1 ih
          simp [hlines', hjoin]

theorem sectionText_written (name : String) (fields : Fields) :
    (section? (name, .table (written fields))) = section? (name, .table fields) := by
  have hjoin (fields : Fields) : section? (name, .table fields) =
      ((fields.mapM line?).map String.join).map fun lines ↦ "[" ++ name ++ "]\n" ++ lines := by
    rw [section?, Option.map_map]
    rfl
  rw [hjoin, hjoin, join_lines_written]

theorem write?_writtenSections (sections : List (String × Fields)) :
    write? (ofSections (writtenSections sections)) = write? (ofSections sections) := by
  have hsections : ((writtenSections sections).map fun s ↦ (s.1, Datum.table s.2)).mapM section? =
      (sections.map fun s ↦ (s.1, Datum.table s.2)).mapM section? := by
    induction sections with
    | nil => rfl
    | cons s sections ih =>
      rw [writtenSections] at ih ⊢
      rw [List.map_cons, List.map_cons, List.map_cons, List.mapM_cons, List.mapM_cons, ih,
        sectionText_written]
  rw [ofSections, ofSections, write?, write?, hsections]

end

/-- The format of configuration files, without a bound on the quotes in a row. -/
def unbounded : Format :=
  { Format.toml with write := fun d ↦ (write? d).elim (.error .unsupported) .ok }

theorem write_unbounded (d : Datum) :
    unbounded.write d = (write? d).elim (.error .unsupported) .ok := rfl

theorem keepsSections_unbounded : unbounded.KeepsSections where
  convention := ⟨_, _, rfl⟩
  omits_null sections := by rw [write_unbounded, write?_writtenSections]; rfl
  refuses sections s hs key i hfield hi := by
    have hword : fitsWord i = false := by
      rw [fitsWord, Bool.and_eq_false_iff]
      exact .inr (decide_eq_false (by omega))
    rw [write_unbounded, write?_eq_none hs hfield hword]
    rfl
  reads_written sections h := by
    obtain ⟨text, hwrite, hread⟩ := exists_write? h
    refine ⟨text, ?_, hread⟩
    rw [write_unbounded, hwrite]
    rfl

end CovarianceSearch.Toml
