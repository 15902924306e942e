import CovarianceSearch.Document.Reader
import CovarianceSearch.Proofs.Document.Format
import CovarianceSearch.Proofs.Document.Json.Atom

namespace CovarianceSearch

namespace Json

def isBlank (c : Char) : Bool := c = ' ' || c = '\n' || c = '\r' || c = '\t'

section

variable {blanks cs rest : List Char} {c : Char} {bound room : ℕ}

theorem skipBlanks_append (h : ∀ c ∈ blanks, isBlank c) :
    skipBlanks (blanks ++ cs) = skipBlanks cs :=
  List.dropWhile_append_of_pos h

theorem skipBlanks_cons (h : isBlank c = false) : skipBlanks (c :: cs) = c :: cs :=
  List.dropWhile_cons_of_neg (Bool.eq_false_iff.1 h)

variable {d : Datum} {ds : List Datum} {fields : List (String × Datum)} {tail closing : List Char}

theorem readValue_atom (hblanks : ∀ c ∈ blanks, isBlank c)
    (hhead : ∃ c ∈ cs.head?, isBlank c = false ∧ c ≠ '[' ∧ c ≠ '\x7b')
    (hbound : 2 * cs.length ≤ bound) (hread : readAtom (cs ++ rest) = some (d, rest)) :
    readValue bound room (blanks ++ (cs ++ rest)) = some (d, rest) := by
  obtain ⟨c, hc, hblank, hlist, htable⟩ := hhead
  obtain ⟨cs, rfl⟩ := List.head?_eq_some_iff.1 hc
  obtain ⟨bound, rfl⟩ : ∃ b, bound = b + 1 := ⟨bound - 1, by rw [List.length_cons] at hbound; omega⟩
  rw [readValue, skipBlanks_append hblanks, List.cons_append, skipBlanks_cons hblank]
  split
  · next h => exact absurd (List.cons.inj h).1 hlist
  · next h => exact absurd (List.cons.inj h).1 htable
  · exact hread

theorem readItems_last (hclosing : ∀ c ∈ closing, isBlank c)
    (hd : readValue bound room cs = some (d, closing ++ ']' :: rest)) :
    readItems (bound + 1) room cs = some ([d], rest) := by
  rw [readItems, hd, Option.bind_eq_bind, Option.bind_some]
  dsimp only
  rw [skipBlanks_append hclosing, skipBlanks_cons rfl]
  rfl

theorem readItems_cons (hd : readValue bound room cs = some (d, ',' :: tail))
    (hds : readItems bound room tail = some (ds, rest)) :
    readItems (bound + 1) room cs = some (d :: ds, rest) := by
  rw [readItems, hd, Option.bind_eq_bind, Option.bind_some]
  dsimp only
  rw [skipBlanks_cons rfl]
  change (readItems bound room tail).map _ = _
  rw [hds]
  rfl

theorem readValue_list (hblanks : ∀ c ∈ blanks, isBlank c) (hclosing : ∀ c ∈ closing, isBlank c)
    (hhead : ∃ c ∈ cs.head?, isBlank c = false ∧ c ≠ ']')
    (hds : readItems bound room cs = some (ds, rest)) :
    readValue (bound + 1) (room + 1) (blanks ++ '[' :: (closing ++ cs)) =
      some (.list ds, rest) := by
  obtain ⟨c, hc, hblank, hend⟩ := hhead
  obtain ⟨cs, rfl⟩ := List.head?_eq_some_iff.1 hc
  rw [readValue, skipBlanks_append hblanks, skipBlanks_cons rfl]
  split
  · next h =>
    cases h
    rw [if_neg (Nat.succ_ne_zero room), skipBlanks_append hclosing, skipBlanks_cons hblank]
    split
    · next h => exact absurd (List.cons.inj h).1 hend
    · rw [Nat.add_sub_cancel, hds]
      rfl
  · next h => cases h
  · next h _ => exact absurd rfl (h _)

theorem readValue_list_nil (hblanks : ∀ c ∈ blanks, isBlank c) :
    readValue (bound + 1) (room + 1) (blanks ++ '[' :: ']' :: rest) = some (.list [], rest) := by
  rw [readValue, skipBlanks_append hblanks, skipBlanks_cons rfl]
  rfl

theorem readValue_table_nil (hblanks : ∀ c ∈ blanks, isBlank c) :
    readValue (bound + 1) (room + 1) (blanks ++ '\x7b' :: '\x7d' :: rest) =
      some (.table [], rest) := by
  rw [readValue, skipBlanks_append hblanks, skipBlanks_cons rfl]
  rfl

theorem readFields_key (key : String) (hblanks : ∀ c ∈ blanks, isBlank c) :
    readFields (bound + 1) room
      (blanks ++ '"' :: (key.toList.flatMap escaped ++ '"' :: ':' :: cs)) =
        (readValue bound room cs).bind fun (d, rest) ↦ (match skipBlanks rest with
          | ',' :: rest =>
            (readFields bound room rest).map fun (fields, r) ↦ ((key, d) :: fields, r)
          | '\x7d' :: rest => some ([(key, d)], rest)
          | _ => none) := by
  rw [readFields, skipBlanks_append hblanks, skipBlanks_cons rfl]
  change (readText _).bind _ = _
  rw [readText_flatMap_escaped, Option.bind_some]
  dsimp only
  rw [skipBlanks_cons rfl, String.ofList_toList]
  rfl

theorem readFields_last (key : String) (hblanks : ∀ c ∈ blanks, isBlank c)
    (hclosing : ∀ c ∈ closing, isBlank c)
    (hd : readValue bound room cs = some (d, closing ++ '\x7d' :: rest)) :
    readFields (bound + 1) room
      (blanks ++ '"' :: (key.toList.flatMap escaped ++ '"' :: ':' :: cs)) =
        some ([(key, d)], rest) := by
  rw [readFields_key key hblanks, hd, Option.bind_some]
  dsimp only
  rw [skipBlanks_append hclosing, skipBlanks_cons rfl]
  rfl

theorem readFields_cons (key : String) (hblanks : ∀ c ∈ blanks, isBlank c)
    (hd : readValue bound room cs = some (d, ',' :: tail))
    (hfields : readFields bound room tail = some (fields, rest)) :
    readFields (bound + 1) room
      (blanks ++ '"' :: (key.toList.flatMap escaped ++ '"' :: ':' :: cs)) =
        some ((key, d) :: fields, rest) := by
  rw [readFields_key key hblanks, hd, Option.bind_some]
  dsimp only
  rw [skipBlanks_cons rfl]
  change (readFields bound room tail).map _ = _
  rw [hfields]
  rfl

theorem readValue_table (hblanks : ∀ c ∈ blanks, isBlank c) (hclosing : ∀ c ∈ closing, isBlank c)
    (hfields : readFields bound room ('"' :: cs) = some (fields, rest)) :
    readValue (bound + 1) (room + 1) (blanks ++ '\x7b' :: (closing ++ '"' :: cs)) =
      some (.ofPairs fields, rest) := by
  rw [readValue, skipBlanks_append hblanks, skipBlanks_cons rfl]
  split
  · next h => cases h
  · next h =>
    cases h
    rw [if_neg (Nat.succ_ne_zero room), skipBlanks_append hclosing, skipBlanks_cons rfl]
    split
    · next h => cases h
    · rw [Nat.add_sub_cancel, hfields]
      rfl
  · next h => exact absurd rfl (h _)

end

def gap : Option String → String
  | none => ""
  | some m => "\n" ++ m ++ "  "

def close : Option String → String
  | none => ""
  | some m => "\n" ++ m

def joined (sep : List Char) (parts : List String) : List Char :=
  List.intercalate (',' :: sep) (parts.map String.toList)

theorem joined_singleton (sep : List Char) (part : String) : joined sep [part] = part.toList :=
  List.intercalate_singleton

theorem joined_cons_cons (sep : List Char) (part next : String) (parts : List String) :
    joined sep (part :: next :: parts) =
      part.toList ++ ',' :: (sep ++ joined sep (next :: parts)) := by
  rw [joined, List.map_cons, List.map_cons, List.intercalate_cons_cons, List.append_assoc]
  rfl

theorem exists_joined_cons (sep : List Char) (part : String) (parts : List String) :
    ∃ rest, joined sep (part :: parts) = part.toList ++ rest := by
  cases parts with
  | nil => exact ⟨[], by rw [joined_singleton, List.append_nil]⟩
  | cons next parts => exact ⟨_, joined_cons_cons sep part next parts⟩

theorem toList_block (opening closing : String) (margin : Option String) {parts : List String}
    (h : parts ≠ []) : (block opening closing margin parts).toList =
      opening.toList ++ ((gap margin).toList ++
        (joined (gap margin).toList parts ++ ((close margin).toList ++ closing.toList))) := by
  obtain ⟨part, parts, rfl⟩ := List.exists_cons_of_ne_nil h
  cases margin <;> simp [block, gap, close, joined, String.toList_intercalate]

theorem of_isNumeric {c : Char} (h : isNumeric c) :
    isBlank c = false ∧ c ≠ '[' ∧ c ≠ '\x7b' ∧ c ≠ ']' := by
  refine ⟨?_, ?_, ?_, ?_⟩
  · by_contra hblank
    simp only [isBlank, Bool.not_eq_false, Bool.or_eq_true, decide_eq_true_eq] at hblank
    obtain ((rfl | rfl) | rfl) | rfl := hblank <;> exact absurd h (by decide)
  all_goals
    rintro rfl
    exact absurd h (by decide)

theorem toList_quoted (s : String) :
    (quoted s).toList = '"' :: (s.toList.flatMap escaped ++ ['"']) := by
  simp [quoted]

theorem exists_toList_block (opening closing : String) (margin : Option String)
    (parts : List String) : ∃ cs, (block opening closing margin parts).toList =
      opening.toList ++ cs := by
  by_cases h : parts = []
  · refine ⟨closing.toList, ?_⟩
    subst h
    cases margin <;> exact String.toList_append
  · exact ⟨_, toList_block opening closing margin h⟩

theorem exists_head_write (margin : Option String) (d : Datum) :
    ∃ c ∈ (write margin d).toList.head?, isBlank c = false ∧ c ≠ ']' := by
  have hword {s : String} (c : Char) (cs : List Char) (hs : s.toList = c :: cs)
      (hc : isBlank c = false ∧ c ≠ ']') :
      ∃ c ∈ s.toList.head?, isBlank c = false ∧ c ≠ ']' := ⟨c, by rw [hs]; rfl, hc⟩
  cases d with
  | null =>
    rw [write]
    exact hword 'n' _ rfl (by decide)
  | bool b =>
    rw [write]
    cases b
    · exact hword 'f' _ rfl (by decide)
    · exact hword 't' _ rfl (by decide)
  | integer n =>
    rw [write]
    obtain ⟨c, hc, hnumeric⟩ := exists_head_toString n
    exact ⟨c, hc, (of_isNumeric hnumeric).1, (of_isNumeric hnumeric).2.2.2⟩
  | real x =>
    rw [write]
    by_cases hx : x.isFinite
    · obtain ⟨c, hc, hnumeric⟩ := exists_head_text hx
      exact ⟨c, hc, (of_isNumeric hnumeric).1, (of_isNumeric hnumeric).2.2.2⟩
    · rw [Decimal.Style.text, if_neg hx]
      exact hword (s := "null") 'n' _ rfl (by decide)
  | text s =>
    rw [write]
    exact hword '"' _ (toList_quoted s) (by decide)
  | list items =>
    rw [write]
    obtain ⟨cs, hcs⟩ := exists_toList_block "[" "]" margin
      (writeItems (margin.map (· ++ "  ")) items)
    exact hword '[' cs hcs (by decide)
  | table fields =>
    rw [write]
    obtain ⟨cs, hcs⟩ := exists_toList_block "\x7b" "\x7d" margin
      (writeFields (margin.map (· ++ "  ")) fields)
    exact hword '\x7b' cs hcs (by decide)

def IsMargin (margin : Option String) : Prop := ∀ m ∈ margin, ∀ c ∈ m.toList, isBlank c

section

variable {margin : Option String}

theorem IsMargin.deeper (h : IsMargin margin) : IsMargin (margin.map (· ++ "  ")) := by
  intro m hm c hc
  obtain ⟨m, hm', rfl⟩ := Option.mem_map.1 hm
  rw [String.toList_append, List.mem_append] at hc
  obtain hc | hc := hc
  · exact h m hm' c hc
  · obtain rfl : c = ' ' := by simpa using hc
    rfl

theorem IsMargin.close (h : IsMargin margin) : ∀ c ∈ (close margin).toList, isBlank c := by
  cases margin with
  | none => simp [Json.close]
  | some m =>
    intro c hc
    simp only [Json.close, String.toList_append, List.mem_append] at hc
    obtain hc | hc := hc
    · obtain rfl : c = '\n' := by simpa using hc
      rfl
    · exact h m rfl c hc

theorem IsMargin.gap (h : IsMargin margin) : ∀ c ∈ (gap margin).toList, isBlank c := by
  cases margin with
  | none => simp [Json.gap]
  | some m =>
    intro c hc
    rw [Json.gap, String.toList_append, List.mem_append] at hc
    obtain hc | hc := hc
    · exact h.close c hc
    · obtain rfl : c = ' ' := by simpa using hc
      rfl

def space (margin : Option String) : List Char := if margin.isSome then [' '] else []

theorem isBlank_of_mem_space {c : Char} (h : c ∈ space margin) : isBlank c := by
  unfold space at h
  split at h
  · obtain rfl := List.mem_singleton.1 h
    rfl
  · cases h

theorem toList_field (margin : Option String) (key value : String) :
    (quoted key ++ (if margin.isSome then ": " else ":") ++ value).toList =
      '"' :: (key.toList.flatMap escaped ++ '"' :: ':' :: (space margin ++ value.toList)) := by
  cases margin <;> simp [quoted, space]

/-- No number goes on behind the blanks and the bracket that close a block. -/
theorem isNumeric_head_append {closing cs : List Char} {c : Char} (h : ∀ d ∈ closing, isBlank d)
    (hc : isNumeric c = false) : ∀ d ∈ (closing ++ c :: cs).head?, isNumeric d = false := by
  intro d hd
  cases closing with
  | nil => exact (Option.some.inj hd) ▸ hc
  | cons e closing =>
    obtain rfl : e = d := Option.some.inj hd
    by_contra hnumeric
    have hblank := (of_isNumeric (eq_true_of_ne_false hnumeric)).1
    rw [h e List.mem_cons_self] at hblank
    cases hblank

end

/-- A datum is read off its text, whatever follows it, but for a number that goes on. -/
def IsRead (d : Datum) : Prop :=
  d.Fits → ∀ (margin : Option String) (blanks rest : List Char) (bound room : ℕ),
    IsMargin margin → (∀ c ∈ blanks, isBlank c) → d.nesting ≤ room →
      2 * (write margin d).toList.length ≤ bound → (∀ c ∈ rest.head?, isNumeric c = false) →
        readValue bound room (blanks ++ ((write margin d).toList ++ rest)) = some (d.settled, rest)

def AreItemsRead (items : List Datum) : Prop :=
  items ≠ [] → Datum.ItemsFit items → ∀ (margin : Option String)
    (blanks sep closing rest : List Char) (bound room : ℕ), IsMargin margin →
      (∀ c ∈ blanks, isBlank c) → (∀ c ∈ sep, isBlank c) → (∀ c ∈ closing, isBlank c) →
        Datum.itemNesting items ≤ room →
        2 * (joined sep (writeItems margin items)).length + 1 ≤ bound →
          readItems bound room
            (blanks ++ (joined sep (writeItems margin items) ++ (closing ++ ']' :: rest))) =
              some (Datum.settledItems items, rest)

def AreFieldsRead (fields : List (String × Datum)) : Prop :=
  fields ≠ [] → Datum.FieldsFit fields → ∀ (margin : Option String)
    (blanks sep closing rest : List Char) (bound room : ℕ), IsMargin margin →
      (∀ c ∈ blanks, isBlank c) → (∀ c ∈ sep, isBlank c) → (∀ c ∈ closing, isBlank c) →
        Datum.fieldNesting fields ≤ room →
        2 * (joined sep (writeFields margin fields)).length + 1 ≤ bound →
          readFields bound room
            (blanks ++ (joined sep (writeFields margin fields) ++ (closing ++ '\x7d' :: rest))) =
              some (Datum.settledFields fields, rest)

theorem isRead_null : IsRead .null := by
  intro _ margin blanks rest bound room _ hblanks _ hbound _
  rw [write] at hbound ⊢
  exact readValue_atom hblanks ⟨'n', rfl, by decide⟩ hbound rfl

theorem isRead_bool (b : Bool) : IsRead (.bool b) := by
  intro _ margin blanks rest bound room _ hblanks _ hbound _
  rw [write] at hbound ⊢
  cases b
  · exact readValue_atom hblanks ⟨'f', rfl, by decide⟩ hbound rfl
  · exact readValue_atom hblanks ⟨'t', rfl, by decide⟩ hbound rfl

theorem isRead_integer (n : ℤ) : IsRead (.integer n) := by
  intro hfits margin blanks rest bound room _ hblanks _ hbound hrest
  obtain ⟨c, hc, hnumeric⟩ := exists_head_toString n
  obtain ⟨hblank, hlist, htable, -⟩ := of_isNumeric hnumeric
  rw [write] at hbound ⊢
  exact readValue_atom hblanks ⟨c, hc, hblank, hlist, htable⟩ hbound
    (readAtom_toString hfits.1 hfits.2 hrest)

theorem isRead_real (x : Float) : IsRead (.real x) := by
  intro _ margin blanks rest bound room _ hblanks _ hbound hrest
  rw [write] at hbound ⊢
  by_cases hx : x.isFinite
  · obtain ⟨c, hc, hnumeric⟩ := exists_head_text hx
    obtain ⟨hblank, hlist, htable, -⟩ := of_isNumeric hnumeric
    rw [Datum.settled, if_pos hx]
    exact readValue_atom hblanks ⟨c, hc, hblank, hlist, htable⟩ hbound (readAtom_text hx hrest)
  · rw [Datum.settled, if_neg hx]
    rw [Decimal.Style.text, if_neg hx] at hbound ⊢
    change readValue bound room (blanks ++ ("null".toList ++ rest)) = _
    exact readValue_atom hblanks ⟨'n', rfl, by decide⟩ hbound rfl

theorem isRead_text (s : String) : IsRead (.text s) := by
  intro _ margin blanks rest bound room _ hblanks _ hbound _
  rw [write, toList_quoted] at hbound ⊢
  refine readValue_atom hblanks ⟨'"', rfl, by decide⟩ hbound ?_
  rw [List.cons_append, List.append_assoc]
  change (readText (_ ++ '"' :: rest)).map _ = _
  rw [readText_flatMap_escaped, Option.map_some]
  dsimp only
  rw [String.ofList_toList]
  rfl

theorem isRead_list {items : List Datum} (h : AreItemsRead items) : IsRead (.list items) := by
  intro hfits margin blanks rest bound room hmargin hblanks hroom hbound _
  rw [Datum.nesting] at hroom
  obtain ⟨room, rfl⟩ := Nat.exists_eq_add_of_le' (le_trans (Nat.le_add_left 1 _) hroom)
  cases items with
  | nil =>
    have htext : (write margin (.list [])).toList = ['[', ']'] := by simp [write, writeItems, block]
    rw [htext] at hbound ⊢
    obtain ⟨bound, rfl⟩ := Nat.exists_eq_add_of_le' (le_trans (by decide : 1 ≤ 4) hbound)
    exact readValue_list_nil hblanks
  | cons d ds =>
    have hparts : writeItems (margin.map (· ++ "  ")) (d :: ds) ≠ [] := List.cons_ne_nil _ _
    have htext := toList_block "[" "]" margin hparts
    rw [write, htext] at hbound ⊢
    simp only [List.length_append, String.reduceToList, List.length_singleton] at hbound
    obtain ⟨bound, rfl⟩ : ∃ b, bound = b + 1 := ⟨bound - 1, by omega⟩
    have hitems := h (List.cons_ne_nil _ _) hfits _ [] _ _ rest bound room hmargin.deeper (by simp)
      hmargin.gap hmargin.close (by omega) (by omega)
    obtain ⟨c, hc, hhead⟩ := exists_head_write (margin.map (· ++ "  ")) d
    obtain ⟨cs, hcs⟩ := List.head?_eq_some_iff.1 hc
    obtain ⟨tail, htail⟩ := exists_joined_cons (gap margin).toList
      (write (margin.map (· ++ "  ")) d) (writeItems (margin.map (· ++ "  ")) ds)
    have hvalue := readValue_list hblanks hmargin.gap ⟨c, ?_, hhead⟩ hitems
    · rw [Datum.settled]
      simpa using hvalue
    · rw [writeItems, htail, hcs]
      rfl

theorem isRead_table {fields : List (String × Datum)} (h : AreFieldsRead fields) :
    IsRead (.table fields) := by
  intro hfits margin blanks rest bound room hmargin hblanks hroom hbound _
  rw [Datum.nesting] at hroom
  obtain ⟨room, rfl⟩ := Nat.exists_eq_add_of_le' (le_trans (Nat.le_add_left 1 _) hroom)
  cases fields with
  | nil =>
    have htext : (write margin (.table [])).toList = ['\x7b', '\x7d'] := by
      simp [write, writeFields, block]
    rw [htext] at hbound ⊢
    obtain ⟨bound, rfl⟩ := Nat.exists_eq_add_of_le' (le_trans (by decide : 1 ≤ 4) hbound)
    exact readValue_table_nil hblanks
  | cons field fields =>
    have hparts : writeFields (margin.map (· ++ "  ")) (field :: fields) ≠ [] :=
      List.cons_ne_nil _ _
    have htext := toList_block "\x7b" "\x7d" margin hparts
    rw [write, htext] at hbound ⊢
    simp only [List.length_append, String.reduceToList, List.length_singleton] at hbound
    obtain ⟨bound, rfl⟩ : ∃ b, bound = b + 1 := ⟨bound - 1, by omega⟩
    have hfields := h (List.cons_ne_nil _ _) hfits.2 _ [] _ _ rest bound room hmargin.deeper
      (by simp) hmargin.gap hmargin.close (by omega) (by omega)
    obtain ⟨cs, hcs⟩ : ∃ cs, joined (gap margin).toList
        (writeFields (margin.map (· ++ "  ")) (field :: fields)) = '"' :: cs := by
      obtain ⟨tail, htail⟩ := exists_joined_cons (gap margin).toList _
        (writeFields (margin.map (· ++ "  ")) fields)
      rw [writeFields, htail, toList_field]
      exact ⟨_, rfl⟩
    have hnodup : ((Datum.settledFields (field :: fields)).map (·.1)).Nodup := by
      rw [Datum.keys_settledFields]
      exact hfits.1
    rw [hcs] at hfields ⊢
    have hvalue := readValue_table hblanks hmargin.gap hfields
    rw [Datum.ofPairs_of_nodup hnodup] at hvalue
    rw [Datum.settled]
    simpa using hvalue

theorem areItemsRead_cons {d : Datum} {ds : List Datum} (hd : IsRead d) (hds : AreItemsRead ds) :
    AreItemsRead (d :: ds) := by
  intro _ hfits margin blanks sep closing rest bound room hmargin hblanks hsep hclosing hroom hbound
  obtain ⟨bound, rfl⟩ := Nat.exists_eq_add_of_le' (le_trans (Nat.le_add_left 1 _) hbound)
  rw [Datum.itemNesting] at hroom
  cases ds with
  | nil =>
    rw [writeItems, writeItems, joined_singleton] at hbound ⊢
    have hvalue := hd hfits.1 margin blanks (closing ++ ']' :: rest) bound room hmargin hblanks
      (by omega) (by omega) (isNumeric_head_append hclosing rfl)
    exact readItems_last hclosing hvalue
  | cons e es =>
    rw [writeItems, writeItems, joined_cons_cons] at hbound ⊢
    simp only [List.length_append, List.length_cons] at hbound
    have htail := hds (List.cons_ne_nil _ _) hfits.2 margin sep sep closing rest bound room hmargin
      hsep hsep hclosing (by omega) (by rw [writeItems]; omega)
    rw [writeItems] at htail
    rw [List.append_assoc, List.cons_append, List.append_assoc]
    have hvalue := fun tail ↦ hd hfits.1 margin blanks (',' :: tail) bound room hmargin hblanks
      (by omega) (by omega) (by simp [isNumeric])
    exact readItems_cons (hvalue _) htail

theorem areFieldsRead_cons {key : String} {d : Datum} {fields : List (String × Datum)}
    (hd : IsRead d) (hfields : AreFieldsRead fields) : AreFieldsRead ((key, d) :: fields) := by
  intro _ hfits margin blanks sep closing rest bound room hmargin hblanks hsep hclosing hroom hbound
  obtain ⟨bound, rfl⟩ := Nat.exists_eq_add_of_le' (le_trans (Nat.le_add_left 1 _) hbound)
  rw [Datum.fieldNesting] at hroom
  cases fields with
  | nil =>
    rw [writeFields, writeFields, joined_singleton, toList_field] at hbound ⊢
    simp only [List.length_append, List.length_cons] at hbound
    have hvalue := hd hfits.1 margin (space margin) (closing ++ '\x7d' :: rest) bound room hmargin
      (fun _ ↦ isBlank_of_mem_space) (by omega) (by omega) (isNumeric_head_append hclosing rfl)
    have hread := readFields_last key hblanks hclosing hvalue
    rw [Datum.settledFields, Datum.settledFields]
    simpa using hread
  | cons field fields =>
    rw [writeFields, writeFields, joined_cons_cons, toList_field] at hbound ⊢
    simp only [List.length_append, List.length_cons] at hbound
    have htail := hfields (List.cons_ne_nil _ _) hfits.2 margin sep sep closing rest bound room
      hmargin hsep hsep hclosing (by omega) (by rw [writeFields]; omega)
    rw [writeFields] at htail
    have hvalue := fun tail ↦ hd hfits.1 margin (space margin) (',' :: tail) bound room hmargin
      (fun _ ↦ isBlank_of_mem_space) (by omega) (by omega) (by simp [isNumeric])
    have hread := readFields_cons key hblanks (hvalue _) htail
    rw [Datum.settledFields]
    simpa using hread

mutual

theorem isRead : (d : Datum) → IsRead d
  | .null => isRead_null
  | .bool b => isRead_bool b
  | .integer n => isRead_integer n
  | .real x => isRead_real x
  | .text s => isRead_text s
  | .list items => isRead_list (areItemsRead items)
  | .table fields => isRead_table (areFieldsRead fields)

theorem areItemsRead : (items : List Datum) → AreItemsRead items
  | [] => fun h ↦ absurd rfl h
  | d :: ds => areItemsRead_cons (isRead d) (areItemsRead ds)

theorem areFieldsRead : (fields : List (String × Datum)) → AreFieldsRead fields
  | [] => fun h ↦ absurd rfl h
  | (_, d) :: fields => areFieldsRead_cons (isRead d) (areFieldsRead fields)

end

/-- What is read off the text of a datum that is not nested too deep. -/
theorem readWithin?_pretty {room : ℕ} {d : Datum} (hfits : d.Fits) (hroom : d.nesting ≤ room) :
    readWithin? room (pretty d) = some d.settled := by
  have hbound : 2 * (pretty d).toList.length ≤ 2 * (pretty d).length + 2 := by
    rw [String.length_toList]
    exact Nat.le_add_right _ _
  have hread := isRead d hfits (some "") [] [] _ room (by simp [IsMargin]) nofun hroom hbound nofun
  rw [List.nil_append, List.append_nil] at hread
  rw [readWithin?]
  change (readValue (2 * (pretty d).length + 2) room (pretty d).toList).bind _ = _
  rw [pretty] at hread ⊢
  rw [hread]
  rfl

theorem writeItems_eq_map (margin : Option String) (items : List Datum) :
    writeItems margin items = items.map (write margin) := by
  induction items with
  | nil => rfl
  | cons d ds ih => rw [writeItems, ih, List.map_cons]

theorem writeFields_eq_map (margin : Option String) (fields : Fields) :
    writeFields margin fields = fields.map fun field ↦
      quoted field.1 ++ (if margin.isSome then ": " else ":") ++ write margin field.2 := by
  induction fields with
  | nil => rfl
  | cons field fields ih => rw [writeFields, ih, List.map_cons]

theorem write_settled (d : Datum) (margin : Option String) :
    write margin d.settled = write margin d := by
  induction d using Datum.induction generalizing margin with
  | real x =>
    rw [Datum.settled]
    split
    · rfl
    · next hx => rw [write, write, Decimal.Style.text, if_neg hx]; rfl
  | list items ih =>
    rw [Datum.settled_list, write, write, writeItems_eq_map, writeItems_eq_map, List.map_map]
    exact congrArg _ (List.map_congr_left fun d hd ↦ ih d hd _)
  | table fields ih =>
    rw [Datum.settled_table, write, write, writeFields_eq_map, writeFields_eq_map, List.map_map]
    refine congrArg _ (List.map_congr_left fun field hfield ↦ ?_)
    exact congrArg _ (ih field hfield _)
  | _ => rfl

theorem keepsData : Format.json.KeepsData where
  writes d := ⟨_, rfl⟩
  write_settled d := congrArg Except.ok (write_settled d (some ""))
  reads_written d text hfits hnesting hfinite hwrite := by
    cases hwrite
    have hread := readWithin?_pretty hfits hnesting
    exact hread.trans (congrArg some (Datum.settled_eq_self d hfinite))

end Json

end CovarianceSearch
