import CovarianceSearch.Document.Toml.Value
import CovarianceSearch.Proofs.Document.Format
import CovarianceSearch.Proofs.Document.Toml.Text

namespace CovarianceSearch

namespace Toml

open Decimal Document

variable {t : Dialect} {cs rest : List Char} {c : Char}

/-- Neither a date nor a time begins with digits before anything but a dash or a colon. -/
def HasNoTime (cs : List Char) : Prop :=
  ∀ ds c tail, ds ≠ [] → (∀ d ∈ ds, d.isDigit) → cs = ds ++ c :: tail → c ≠ '-' ∧ c ≠ ':'

theorem HasNoTime.readDate_eq_none (h : HasNoTime cs) : readDate cs = none := by
  unfold readDate
  split
  · next a b c d e f g i tail =>
    cases hyear : readNat? [a, b, c, d] with
    | none => rfl
    | some year =>
      have hdash := h [a, b, c, d] '-' _ (by simp) (readNat?_eq_some_iff.1 hyear).2.1 rfl
      exact absurd rfl hdash.1
  · rfl

theorem HasNoTime.readClock_eq_none (h : HasNoTime cs) : readClock t cs = none := by
  unfold readClock
  split
  · next a b c d tail =>
    cases hhour : readNat? [a, b] with
    | none => simp [isWithin, hhour]
    | some hour =>
      have hcolon := h [a, b] ':' _ (by simp) (readNat?_eq_some_iff.1 hhour).2.1 rfl
      exact absurd rfl hcolon.2
  · rfl

theorem HasNoTime.readTime_eq_none (h : HasNoTime cs) : readTime t cs = none := by
  rw [readTime, h.readDate_eq_none, h.readClock_eq_none]
  rfl

theorem hasNoTime_of_head (h : ∀ c ∈ cs.head?, c.isDigit = false) : HasNoTime cs := by
  intro ds c tail hds hdigits hcs
  obtain ⟨d, ds, rfl⟩ := List.exists_cons_of_ne_nil hds
  have hd := h d (by rw [hcs]; rfl)
  rw [hdigits d List.mem_cons_self] at hd
  cases hd

theorem hasNoTime_append (hcs : ∀ c ∈ cs, c.isDigit)
    (hrest : ∀ c ∈ rest.head?, c.isDigit = false ∧ c ≠ '-' ∧ c ≠ ':') : HasNoTime (cs ++ rest) := by
  intro ds c tail _ hds heq
  by_contra hc
  have hdigit : c.isDigit = false := by
    by_cases hdash : c = '-'
    · rw [hdash]
      rfl
    · have hcolon : c = ':' := by
        by_contra hcolon
        exact hc ⟨hdash, hcolon⟩
      rw [hcolon]
      rfl
  have htail : rest = c :: tail := by
    have hsplit := congrArg (List.dropWhile (·.isDigit)) heq
    rwa [dropWhile_append_eq hcs fun d hd ↦ (hrest d hd).1,
      dropWhile_append_eq hds (by simpa using hdigit)] at hsplit
  exact hc (hrest c (by rw [htail]; rfl)).2

theorem joinDigits?_of_notMem {isDigit : Char → Bool} (h : '_' ∉ cs) :
    joinDigits? isDigit cs = some cs := by
  induction cs with
  | nil => rw [joinDigits?]
  | cons c cs ih =>
    rw [List.mem_cons, not_or] at h
    rw [joinDigits?, if_neg (Ne.symm h.1), ih h.2]
    · rfl
    · intro a tail hcs
      exact h.2 (by simp [hcs])

theorem isWordChar_of_isNumeric (h : Json.isNumeric c) : isWordChar c := by
  simp only [Json.isNumeric, Bool.or_eq_true, decide_eq_true_eq] at h
  obtain ((((h | rfl) | rfl) | rfl) | rfl) | rfl := h
  · simp [isWordChar, Char.isAlphanum, h]
  all_goals rfl

theorem ofWord?_of_isNumeric {word : List Char} (h : ∀ c ∈ word, Json.isNumeric c) :
    ofWord? t word = readDecimal? t word := by
  have hne {s : String} (c : Char) (hc : c ∈ s.toList) (hnumeric : Json.isNumeric c = false) :
      String.ofList word ≠ s := by
    intro hs
    rw [← hs, String.toList_ofList] at hc
    exact absurd (h c hc) (by simp [hnumeric])
  unfold ofWord?
  split
  · next hs => exact absurd hs (hne 't' (by decide) rfl)
  · next hs => exact absurd hs (hne 'f' (by decide) rfl)
  · next hs => exact absurd hs (hne 'n' (by decide) rfl)
  · next hs => exact absurd hs (hne 'n' (by decide) rfl)
  · next hs => exact absurd hs (hne 'n' (by decide) rfl)
  · next hs => exact absurd hs (hne 'n' (by decide) rfl)
  · next hs => exact absurd hs (hne 'n' (by decide) rfl)
  · next hs => exact absurd hs (hne 'n' (by decide) rfl)
  · split
    · exact absurd (h 'x' (by simp)) (by decide)
    · exact absurd (h 'o' (by simp)) (by decide)
    · exact absurd (h 'b' (by simp)) (by decide)
    · rfl

/-- What follows a value in a document: the end of its line, another value or the end of a list. -/
def Follows (rest : List Char) : Prop := ∃ c ∈ rest.head?, c = '\n' ∨ c = ',' ∨ c = ']'

theorem Follows.forall_head {p : Char → Prop} (h : Follows rest)
    (hp : p '\n' ∧ p ',' ∧ p ']') : ∀ c ∈ rest.head?, p c := by
  obtain ⟨d, hd, hcases⟩ := h
  intro c hc
  obtain rfl := Option.some_inj.1 (hd.symm.trans hc)
  obtain rfl | rfl | rfl := hcases
  · exact hp.1
  · exact hp.2.1
  · exact hp.2.2

theorem Follows.head?_ne {q : Char} (h : Follows rest) (hq : q ≠ '\n' ∧ q ≠ ',' ∧ q ≠ ']') :
    rest.head? ≠ some q := by
  intro hrest
  exact h.forall_head (p := (· ≠ q)) ⟨hq.1.symm, hq.2.1.symm, hq.2.2.symm⟩ q hrest rfl

section

variable {n : Numeral} {d : Datum}

theorem readScalar_word {word : List Char} (hword : ∀ c ∈ word, isWordChar c)
    (htime : HasNoTime (word ++ rest)) (hd : ofWord? t word = some d) (hrest : Follows rest) :
    readScalar t (word ++ rest) = some (d, rest) := by
  have hend : ∀ c ∈ rest.head?, isWordChar c = false := hrest.forall_head (by decide)
  have hquote : ∀ q tail, isWordChar q = false → q ≠ '\n' ∧ q ≠ ',' ∧ q ≠ ']' →
      word ++ rest ≠ q :: tail := by
    intro q tail hq hne heq
    cases word with
    | nil => exact hrest.head?_ne hne (by rw [← List.nil_append rest, heq]; rfl)
    | cons c word =>
      have hc := hword c List.mem_cons_self
      rw [(List.cons.inj heq).1, hq] at hc
      cases hc
  unfold readScalar
  split
  · next heq => exact absurd heq (hquote '"' _ rfl (by decide))
  · next heq => exact absurd heq (hquote '\'' _ rfl (by decide))
  · rw [htime.readTime_eq_none]
    dsimp only
    rw [takeWhile_append_eq hword hend, dropWhile_append_eq hword hend, hd]
    rfl

theorem hasNoTime_chars (h : n.IsWellFormed) (hsign : ∀ c ∈ n.sign, c = '-')
    (hrest : Follows rest) : HasNoTime (n.chars ++ rest) := by
  obtain ⟨sign, whole, fraction, power⟩ := n
  rw [Numeral.chars]
  dsimp only
  cases sign with
  | some c =>
    obtain rfl := hsign c rfl
    exact hasNoTime_of_head (by simp)
  | none =>
    rw [Option.toList_none, List.nil_append, List.append_assoc]
    refine hasNoTime_append (fun c hc ↦ h c (List.mem_append_left _ hc)) ?_
    cases fraction with
    | some f => simp
    | none =>
      cases power with
      | some p => simp
      | none => exact hrest.forall_head (by decide)

theorem readScalar_chars (h : n.IsWellFormed) (hsign : ∀ c ∈ n.sign, c = '-')
    (hd : readDecimal? t n.chars = some d) (hrest : Follows rest) :
    readScalar t (n.chars ++ rest) = some (d, rest) := by
  have hnumeric : ∀ c ∈ n.chars, Json.isNumeric c := fun c ↦ Json.isNumeric_of_mem_chars h hsign
  have hword : ∀ c ∈ n.chars, isWordChar c := fun c hc ↦ isWordChar_of_isNumeric (hnumeric c hc)
  rw [← ofWord?_of_isNumeric hnumeric] at hd
  exact readScalar_word hword (hasNoTime_chars h hsign hrest) hd hrest

theorem underscore_notMem_chars (h : n.IsWellFormed) (hsign : ∀ c ∈ n.sign, c = '-') :
    '_' ∉ n.chars := by
  intro hmem
  exact absurd (Json.isNumeric_of_mem_chars h hsign hmem) (by decide)

theorem readDecimal?_toString {i : ℤ} (hi : fitsWord i) :
    readDecimal? t (Json.wholeNumeral i).chars = some (.integer i) := by
  have hwell := Json.isWellFormed_wholeNumeral i
  have hread := Numeral.read?_chars hwell (fun c hc ↦ .inl (Json.sign_wholeNumeral c hc))
    Nat.toDigits_ne_nil
  have hwhole : (Json.wholeNumeral i).isWhole = true := rfl
  rw [readDecimal?, joinDigits?_of_notMem (underscore_notMem_chars hwell Json.sign_wholeNumeral),
    Option.bind_eq_bind, Option.bind_some, hread]
  simp [Json.isStrict_wholeNumeral, hwhole, Json.toInt_wholeNumeral, inWord?, hi]

theorem readDecimal?_real {x : Float} (hn : n.IsReal) (hread : n.toFloat = x)
    (hx : t.accepts x) : readDecimal? t n.chars = some (.real x) := by
  have hchars := Numeral.read?_chars hn.wellFormed (fun c hc ↦ .inl (hn.sign c hc))
    (Json.whole_ne_nil hn.strict)
  rw [readDecimal?, joinDigits?_of_notMem (underscore_notMem_chars hn.wellFormed hn.sign),
    Option.bind_eq_bind, Option.bind_some, hchars]
  simp [hn.strict, hn.notWhole, hread, hx]

end

/-- The text of a scalar, which begins neither with a blank nor like a comment, a list or a table
and is read up to where the document goes on. -/
structure IsScalarText (d : Datum) (text : String) : Prop where
  head : ∃ c ∈ text.toList.head?, c ∉ [' ', '\t', '\n', '\r', '#', '[', ']', '\x7b']
  read : ∀ rest, Follows rest → readScalar .strict (text.toList ++ rest) = some (d, rest)

theorem IsScalarText.of_isWordChar {d : Datum} {text : String}
    (hhead : ∃ c ∈ text.toList.head?, isWordChar c)
    (hread : ∀ rest, Follows rest → readScalar .strict (text.toList ++ rest) = some (d, rest)) :
    IsScalarText d text := by
  obtain ⟨c, hc, hword⟩ := hhead
  refine ⟨⟨c, hc, fun hmem ↦ ?_⟩, hread⟩
  have hall : ∀ c ∈ [' ', '\t', '\n', '\r', '#', '[', ']', '\x7b'], isWordChar c = false := by
    simp [isWordChar, Char.isAlphanum, Char.isAlpha]
  rw [hall c hmem] at hword
  cases hword

theorem isScalarText_bool (b : Bool) : IsScalarText (.bool b) (if b then "true" else "false") := by
  have hword {word : String} (hhead : ∃ c ∈ word.toList.head?, c = 't' ∨ c = 'f')
      (hchars : ∀ c ∈ word.toList, isWordChar c)
      (hd : ofWord? .strict word.toList = some (.bool b)) :
      IsScalarText (.bool b) word := by
    obtain ⟨c, hc, hletter⟩ := hhead
    obtain ⟨cs, hcs⟩ := List.head?_eq_some_iff.1 hc
    refine .of_isWordChar ⟨c, hc, hchars c (by simp [hcs])⟩ fun rest hrest ↦ ?_
    refine readScalar_word hchars (hasNoTime_of_head ?_) hd hrest
    obtain rfl | rfl := hletter <;> simp [hcs]
  cases b with
  | true => exact hword ⟨'t', rfl, .inl rfl⟩ (List.all_eq_true.1 rfl) (by simp [ofWord?])
  | false => exact hword ⟨'f', rfl, .inr rfl⟩ (List.all_eq_true.1 rfl) (by simp [ofWord?])

theorem exists_head_textValue (s : String) :
    ∃ c ∈ (textValue s).toList.head?, c = '"' ∨ c = '\'' := by
  cases h : Quoting.of s.toList with
  | basic => exact ⟨'"', by simp [textValue, h], .inl rfl⟩
  | literal => exact ⟨'\'', by simp [textValue, h], .inr rfl⟩
  | longBasic => exact ⟨'"', by simp [textValue, h], .inl rfl⟩
  | longLiteral => exact ⟨'\'', by simp [textValue, h], .inr rfl⟩

theorem readScalar_textValue (t : Dialect) (s : String) (hrest : Follows rest) :
    readScalar t ((textValue s).toList ++ rest) = some (.text s, rest) := by
  have hquotes := And.intro (hrest.head?_ne (q := '"') (by decide))
    (hrest.head?_ne (q := '\'') (by decide))
  have hread := readText_textValue t s hquotes
  obtain ⟨c, hc, hcases⟩ := exists_head_textValue s
  obtain ⟨cs, hcs⟩ := List.head?_eq_some_iff.1 hc
  rw [hcs] at hread ⊢
  obtain rfl | rfl := hcases <;>
  · change (readText t _).map _ = _
    rw [hread, Option.map_some]
    dsimp only
    rw [String.ofList_toList]

theorem exists_isScalarText {d : Datum} (h : IsScalar d) :
    ∃ text, scalar? d = some text ∧ IsScalarText d text := by
  cases d with
  | bool b => exact ⟨_, rfl, isScalarText_bool b⟩
  | integer i =>
    refine ⟨toString i, if_pos h, .of_isWordChar ?_ fun rest hrest ↦ ?_⟩
    · obtain ⟨c, hc, hnumeric⟩ := Json.exists_head_toString i
      exact ⟨c, hc, isWordChar_of_isNumeric hnumeric⟩
    · rw [← Json.chars_wholeNumeral]
      exact readScalar_chars (Json.isWellFormed_wholeNumeral i) Json.sign_wholeNumeral
        (readDecimal?_toString h) hrest
  | real x =>
    obtain ⟨n, hchars, hreal, hread⟩ := exists_numeral_text .setting rfl h
    refine ⟨Style.setting.text x, rfl, .of_isWordChar ?_ fun rest hrest ↦ ?_⟩
    · obtain ⟨c, hc, hnumeric⟩ :=
        Json.exists_head_chars hreal.wellFormed hreal.sign (Json.whole_ne_nil hreal.strict)
      exact ⟨c, hchars ▸ hc, isWordChar_of_isNumeric hnumeric⟩
    · have haccepts : Dialect.strict.accepts x := by
        change (x.isFinite || _) = true
        rw [h, Bool.true_or]
      rw [hchars]
      exact readScalar_chars hreal.wellFormed hreal.sign (readDecimal?_real hreal hread haccepts)
        hrest
  | text s =>
    refine ⟨textValue s, rfl, ?_, fun rest hrest ↦ readScalar_textValue .strict s hrest⟩
    obtain ⟨c, hc, hcases⟩ := exists_head_textValue s
    exact ⟨c, hc, by obtain rfl | rfl := hcases <;> decide⟩
  | null => cases h
  | list items => cases h
  | table fields => cases h

section

variable {bound room : ℕ} {d : Datum} {text : String} {items : List Datum} {texts : List String}

theorem skipFiller_line (cs : List Char) : skipFiller false ('\n' :: cs) = skipFiller false cs := by
  rw [skipFiller]

theorem skipFiller_blank (cs : List Char) : skipFiller false (' ' :: cs) = skipFiller false cs := by
  rw [skipFiller]
  · rfl
  all_goals simp

theorem skipFiller_cons (h : c ∉ [' ', '\t', '\n', '\r', '#']) :
    skipFiller false (c :: cs) = c :: cs := by
  simp only [List.mem_cons, List.not_mem_nil, or_false, not_or] at h
  obtain ⟨hblank, htab, hline, hreturn, hmark⟩ := h
  rw [skipFiller]
  · simp [hmark, isSpace, hblank, htab]
  · simp [hline]
  · simp [hreturn]

theorem IsScalarText.readValue_eq (h : IsScalarText d text) (hrest : Follows rest) :
    readValue .strict (bound + 1) room (text.toList ++ rest) = some (d, rest) := by
  obtain ⟨c, hc, hhead⟩ := h.head
  obtain ⟨cs, hcs⟩ := List.head?_eq_some_iff.1 hc
  have hread := h.read rest hrest
  rw [hcs] at hread ⊢
  rw [List.cons_append, readValue]
  · exact hread
  · simp_all
  · simp_all

theorem IsScalarText.skipFiller_eq (h : IsScalarText d text) (rest : List Char) :
    skipFiller false (text.toList ++ rest) = text.toList ++ rest ∧
      ∀ tail, text.toList ++ rest ≠ ']' :: tail := by
  obtain ⟨c, hc, hhead⟩ := h.head
  obtain ⟨cs, hcs⟩ := List.head?_eq_some_iff.1 hc
  rw [hcs, List.cons_append]
  constructor
  · refine skipFiller_cons fun hmem ↦ hhead ?_
    simp only [List.mem_cons, List.not_mem_nil, or_false] at hmem ⊢
    tauto
  · intro tail heq
    rw [(List.cons.inj heq).1] at hhead
    exact hhead (by decide)

theorem exists_isScalarTexts (h : ∀ d ∈ items, IsScalar d) :
    ∃ texts, items.mapM scalar? = some texts ∧ List.Forall₂ IsScalarText items texts := by
  induction items with
  | nil => exact ⟨[], rfl, .nil⟩
  | cons d items ih =>
    obtain ⟨hd, hitems⟩ := List.forall_mem_cons.1 h
    obtain ⟨text, htext, hscalar⟩ := exists_isScalarText hd
    obtain ⟨texts, htexts, hscalars⟩ := ih hitems
    exact ⟨text :: texts, Datum.mapM_cons_eq_some htext htexts, .cons hscalar hscalars⟩

def itemLines (texts : List String) : List Char :=
  texts.flatMap fun text ↦ "\n    ".toList ++ text.toList ++ [',']

theorem readItems_itemLines (h : List.Forall₂ IsScalarText items texts)
    (hbound : texts.length + 2 ≤ bound) :
    readItems .strict bound room (itemLines texts ++ '\n' :: ']' :: rest) = some (items, rest) := by
  induction h generalizing bound with
  | nil =>
    obtain ⟨bound, rfl⟩ := Nat.exists_eq_add_of_le' (le_trans (by decide : 1 ≤ 2) hbound)
    change readItems .strict (bound + 1) room ('\n' :: ']' :: rest) = _
    rw [readItems, skipFiller_line, skipFiller_cons (by decide)]
    rfl
  | @cons d text items texts hd _ ih =>
    rw [List.length_cons] at hbound
    obtain ⟨bound, rfl⟩ : ∃ b, bound = b + 2 := ⟨bound - 2, by omega⟩
    have hitems := ih (by omega : texts.length + 2 ≤ bound + 1)
    have hblanks : itemLines (text :: texts) ++ '\n' :: ']' :: rest =
        '\n' :: ' ' :: ' ' :: ' ' :: ' ' ::
          (text.toList ++ ',' :: (itemLines texts ++ '\n' :: ']' :: rest)) := by
      simp [itemLines]
    obtain ⟨hskip, hend⟩ := hd.skipFiller_eq (',' :: (itemLines texts ++ '\n' :: ']' :: rest))
    rw [hblanks, readItems, skipFiller_line, skipFiller_blank, skipFiller_blank, skipFiller_blank,
      skipFiller_blank, hskip]
    split
    · next heq => exact absurd heq (hend _)
    · rw [hd.readValue_eq ⟨',', rfl, by decide⟩, Option.bind_eq_bind, Option.bind_some]
      dsimp only
      rw [skipFiller_cons (by decide)]
      change (readItems .strict (bound + 1) room _).map _ = _
      rw [hitems]
      rfl

theorem toList_listText_of_two (first second : String) (texts : List String) :
    (listText (first :: second :: texts)).toList =
      '[' :: (itemLines (first :: second :: texts) ++ ['\n', ']']) := by
  have hlines (texts : List String) :
      '\n' :: (String.join (texts.map fun text ↦ "    " ++ text ++ ",\n")).toList =
        itemLines texts ++ ['\n'] := by
    induction texts with
    | nil => rfl
    | cons text texts ih =>
      simp only [itemLines, List.flatMap_cons, List.map_cons, String.toList_join] at ih ⊢
      rw [List.append_assoc, ← ih]
      simp
  have htext : (listText (first :: second :: texts)).toList =
      '[' :: ('\n' :: (String.join ((first :: second :: texts).map fun text ↦
        "    " ++ text ++ ",\n")).toList ++ [']']) := by
    rw [listText]
    · simp
    all_goals simp
  rw [htext, hlines, List.append_assoc]
  rfl

theorem readValue_listText (h : List.Forall₂ IsScalarText items texts) (hroom : room ≠ 0)
    (hbound : texts.length + 3 ≤ bound) :
    readValue .strict bound room ((listText texts).toList ++ rest) =
      some (.list items, rest) := by
  obtain ⟨bound, rfl⟩ : ∃ b, bound = b + 2 := ⟨bound - 2, by omega⟩
  have hread {cs : List Char}
      (hitems : readItems .strict (bound + 1) (room - 1) cs = some (items, rest)) :
      readValue .strict (bound + 2) room ('[' :: cs) = some (.list items, rest) := by
    rw [readValue, if_neg hroom, hitems]
    rfl
  match h with
  | .nil =>
    have hitems : readItems .strict (bound + 1) (room - 1) (']' :: rest) = some ([], rest) := by
      rw [readItems, skipFiller_cons (by decide)]
      rfl
    exact hread hitems
  | @List.Forall₂.cons _ _ _ d text items texts hd hitems =>
    cases hitems with
    | nil =>
      obtain ⟨hskip, hend⟩ := hd.skipFiller_eq (']' :: rest)
      have htext : (listText [text]).toList ++ rest = '[' :: (text.toList ++ ']' :: rest) := by
        simp [listText]
      rw [htext]
      refine hread ?_
      rw [readItems, hskip]
      split
      · next heq => exact absurd heq (hend _)
      · obtain ⟨bound, rfl⟩ : ∃ b, bound = b + 1 := ⟨bound - 1, by simp at hbound; omega⟩
        rw [hd.readValue_eq ⟨']', rfl, by decide⟩, Option.bind_eq_bind, Option.bind_some]
        dsimp only
        rw [skipFiller_cons (by decide)]
        rfl
    | @cons e second items texts he hitems =>
      rw [toList_listText_of_two, List.cons_append, List.append_assoc]
      exact hread (readItems_itemLines (.cons hd (.cons he hitems)) (by omega))

/-- The text of a value, which does not begin with a blank and is read up to the end of the line. -/
structure IsValueText (d : Datum) (text : String) : Prop where
  head : ∃ c ∈ text.toList.head?, isSpace c = false
  read : ∀ bound rest, text.toList.length + 3 ≤ bound → Follows rest →
    readValue .strict bound Dialect.strict.nesting (text.toList ++ rest) = some (d, rest)

theorem length_le_length_itemLines (texts : List String) :
    texts.length ≤ (itemLines texts).length := by
  induction texts with
  | nil => exact le_rfl
  | cons text texts ih =>
    simp only [itemLines, List.flatMap_cons, List.length_append, List.length_cons,
      List.length_nil] at ih ⊢
    omega

theorem length_le_length_listText (texts : List String) :
    texts.length ≤ (listText texts).toList.length := by
  match texts with
  | [] => exact Nat.zero_le _
  | [text] => simp [listText]
  | first :: second :: texts =>
    have hlines := length_le_length_itemLines (first :: second :: texts)
    rw [toList_listText_of_two]
    refine hlines.trans ?_
    rw [List.length_cons, List.length_append]
    omega

theorem exists_head_listText (texts : List String) :
    ∃ c ∈ (listText texts).toList.head?, isSpace c = false := by
  match texts with
  | [] => exact ⟨'[', rfl, rfl⟩
  | [text] => exact ⟨'[', by simp [listText], rfl⟩
  | first :: second :: texts => exact ⟨'[', by rw [toList_listText_of_two]; rfl, rfl⟩

theorem IsScalarText.isValueText (h : IsScalarText d text) : IsValueText d text where
  head := by
    obtain ⟨c, hc, hhead⟩ := h.head
    refine ⟨c, hc, ?_⟩
    simp only [List.mem_cons, not_or] at hhead
    simp [isSpace, hhead.1, hhead.2.1]
  read := by
    intro bound rest hbound hrest
    obtain ⟨bound, rfl⟩ : ∃ b, bound = b + 1 := ⟨bound - 1, by omega⟩
    exact h.readValue_eq hrest

theorem exists_isValueText (h : IsValue d) :
    ∃ text, value? d = some text ∧ IsValueText d text := by
  have hscalar {d : Datum} (h : IsScalar d) (hvalue : value? d = scalar? d) :
      ∃ text, value? d = some text ∧ IsValueText d text := by
    obtain ⟨text, htext, hread⟩ := exists_isScalarText h
    exact ⟨text, hvalue.trans htext, hread.isValueText⟩
  cases d with
  | list items =>
    obtain ⟨texts, htexts, hitems⟩ := exists_isScalarTexts h
    refine ⟨listText texts, by rw [value?, htexts]; rfl, exists_head_listText texts, ?_⟩
    intro bound rest hbound hrest
    have hlength := length_le_length_listText texts
    exact readValue_listText hitems (by decide) (by omega)
  | bool b => exact hscalar (d := .bool b) h rfl
  | integer i => exact hscalar (d := .integer i) h rfl
  | real x => exact hscalar (d := .real x) h rfl
  | text s => exact hscalar (d := .text s) h rfl
  | null => cases h
  | table fields => cases h

end

end Toml

end CovarianceSearch
