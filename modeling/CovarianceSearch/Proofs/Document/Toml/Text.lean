import CovarianceSearch.Document.Toml.Text
import CovarianceSearch.Document.Toml.Write
import CovarianceSearch.Proofs.Document.Json.Atom

namespace CovarianceSearch.Toml

section

variable {c e : Char} {cs rest tail : List Char} {t : Dialect}

theorem isControl_eq_false (hlarge : 0x20 ≤ c.toNat) (hdelete : c.toNat ≠ 0x7F) :
    isControl c = false := by
  simp [isControl, hdelete, not_lt.2 hlarge]

def letters : List Char := ['"', '\\', 'n', 'r', 't', 'b', 'f']

theorem mem_letters_of_escaped (h : Json.escaped c = ['\\', e]) (he : Json.ofEscape? e = some c) :
    e ∈ letters := by
  unfold Json.ofEscape? at he
  split at he
  · decide
  · decide
  · cases he
    exact absurd h (by decide)
  · decide
  · decide
  · decide
  · decide
  · decide
  · cases he

theorem escaped_cases (c : Char) :
    (∃ e ∈ letters, escaped c = ['\\', e] ∧ Json.ofEscape? e = some c) ∨
      (∃ a b d e, escaped c = ['\\', 'u', a, b, d, e] ∧
        Json.readHex 0 [a, b, d, e] = some c.toNat) ∨
      (c ≠ '"' ∧ c ≠ '\\' ∧ isControl c = false ∧ escaped c = [c]) := by
  unfold escaped
  split
  · next h =>
    have hsmall : c.toNat < 128 := by
      simp only [Bool.or_eq_true, Bool.and_eq_true, decide_eq_true_eq] at h
      omega
    obtain ⟨a, b, d, e, hquad, -, hread⟩ := Json.exists_hexQuad hsmall
    exact .inr (.inl ⟨_, _, _, _, by rw [hquad]; rfl, hread⟩)
  · next h =>
    have hdelete : c.toNat ≠ 0x7F := fun hc ↦ h (by simp [hc])
    obtain ⟨e, hescaped, -, he⟩ | ⟨hsmall, hescaped⟩ | ⟨hquote, hslash, hlarge, hescaped⟩ :=
      Json.escaped_cases c
    · exact .inl ⟨e, mem_letters_of_escaped hescaped he, hescaped, he⟩
    · obtain ⟨a, b, d, e, hquad, hread, -⟩ := Json.exists_hexQuad (hsmall.trans (by decide))
      exact .inr (.inl ⟨a, b, d, e, by rw [hescaped, hquad], hread⟩)
    · exact .inr (.inr ⟨hquote, hslash, isControl_eq_false hlarge hdelete, hescaped⟩)

theorem ofEscape?_of_mem (he : e ∈ letters) : ofEscape? t e = Json.ofEscape? e := by
  have hletter : e ≠ '/' ∧ e ≠ 'e' := by
    constructor
    · intro h
      exact absurd (h ▸ he) (by decide)
    · intro h
      exact absurd (h ▸ he) (by decide)
  rw [ofEscape?, if_neg hletter.1, if_neg hletter.2]

theorem ne_of_mem_letters (he : e ∈ letters) : e ≠ 'x' ∧ e ≠ 'u' ∧ e ≠ 'U' := by
  refine ⟨?_, ?_, ?_⟩ <;>
  · intro h
    exact absurd (h ▸ he) (by decide)

theorem endsInBlanks_cons (he : e ∈ letters) : endsInBlanks (e :: cs) = false := by
  simp only [letters, List.mem_cons, List.not_mem_nil, or_false] at he
  obtain rfl | rfl | rfl | rfl | rfl | rfl | rfl := he <;> rfl

theorem readBasic_escaped (t : Dialect) (c : Char) (rest : List Char) :
    readBasic t (escaped c ++ rest) = (readBasic t rest).map fun (cs, r) ↦ (c :: cs, r) := by
  obtain ⟨e, he, hescaped, hc⟩ | ⟨a, b, d, e, hescaped, hread⟩ |
    ⟨hquote, hslash, hcontrol, hescaped⟩ := escaped_cases c
  · obtain ⟨hx, hu, hU⟩ := ne_of_mem_letters he
    rw [hescaped]
    change readBasic t ('\\' :: e :: rest) = _
    rw [readBasic]
    · rw [ofEscape?_of_mem he, hc]
      cases readBasic t rest <;> rfl
    · simp [hx]
    · simp [hu]
    · simp [hU]
  · rw [hescaped]
    change readBasic t ('\\' :: 'u' :: a :: b :: d :: e :: rest) = _
    rw [readBasic, hread, Option.bind_eq_bind, Option.bind_some, Json.charOfCode?_toNat]
    cases readBasic t rest <;> rfl
  · rw [hescaped]
    change readBasic t (c :: rest) = _
    rw [readBasic, hcontrol]
    · rfl
    · simp [hquote]
    all_goals simp [hslash]

theorem readLongBasic_escaped (t : Dialect) (c : Char) (rest : List Char) :
    readLongBasic t false (escaped c ++ rest) =
      (readLongBasic t false rest).map fun (cs, r) ↦ (c :: cs, r) := by
  obtain ⟨e, he, hescaped, hc⟩ | ⟨a, b, d, e, hescaped, hread⟩ |
    ⟨hquote, hslash, hcontrol, hescaped⟩ := escaped_cases c
  · obtain ⟨hx, hu, hU⟩ := ne_of_mem_letters he
    rw [hescaped]
    change readLongBasic t false ('\\' :: e :: rest) = _
    rw [readLongBasic]
    · rw [endsInBlanks_cons he, ofEscape?_of_mem he, hc]
      cases readLongBasic t false rest <;> rfl
    · simp [hx]
    · simp [hu]
    · simp [hU]
  · rw [hescaped]
    change readLongBasic t false ('\\' :: 'u' :: a :: b :: d :: e :: rest) = _
    rw [readLongBasic, hread, Option.bind_eq_bind, Option.bind_some, Json.charOfCode?_toNat]
    cases readLongBasic t false rest <;> rfl
  · have hreturn : c ≠ '\r' := by
      intro h
      exact absurd (h ▸ hcontrol) (by decide)
    rw [hescaped]
    change readLongBasic t false (c :: rest) = _
    rw [readLongBasic, hcontrol]
    · rfl
    all_goals simp [hslash, hquote, hreturn]

end

section

variable {q : Char} {read : List Char → Option (List Char × List Char)} {rest tail : List Char}
  {run : ℕ}

/-- What three quotes end may hold two of them in a row, also before its end. -/
structure EndsInThree (q : Char) (read : List Char → Option (List Char × List Char)) : Prop where
  close : ∀ rest, rest.head? ≠ some q → read (q :: q :: q :: rest) = some ([], rest)
  close_one : ∀ rest, rest.head? ≠ some q → read (q :: q :: q :: q :: rest) = some ([q], rest)
  close_two : ∀ rest, read (q :: q :: q :: q :: q :: rest) = some ([q, q], rest)
  quote : ∀ tail, ¬ [q, q] <+: tail → read (q :: tail) = (read tail).map fun (cs, r) ↦ (q :: cs, r)

namespace EndsInThree

theorem read_close (h : EndsInThree q read) (hrun : run ≤ 2) (hrest : rest.head? ≠ some q) :
    read (List.replicate run q ++ q :: q :: q :: rest) = some (List.replicate run q, rest) := by
  match run, hrun with
  | 0, _ => exact h.close rest hrest
  | 1, _ => exact h.close_one rest hrest
  | 2, _ => exact h.close_two rest

theorem read_quotes (h : EndsInThree q read) (hrun : run ≤ 2) (htail : tail.head? ≠ some q) :
    read (List.replicate run q ++ tail) =
      (read tail).map fun (cs, r) ↦ (List.replicate run q ++ cs, r) := by
  have hone : ¬ [q, q] <+: tail := by
    intro hprefix
    obtain ⟨cs, rfl⟩ := hprefix
    exact htail rfl
  have htwo : ¬ [q, q] <+: q :: tail := by
    intro hprefix
    obtain ⟨cs, hcs⟩ := hprefix
    rw [← (List.cons.inj hcs).2] at htail
    exact htail rfl
  match run, hrun with
  | 0, _ => simp
  | 1, _ => exact h.quote tail hone
  | 2, _ =>
    change read (q :: q :: tail) = _
    rw [h.quote _ htwo, h.quote _ hone]
    cases read tail <;> rfl

end EndsInThree

theorem endsInThree_readLongBasic (t : Dialect) : EndsInThree '"' (readLongBasic t false) where
  close := by
    intro rest hrest
    rw [readLongBasic]
    · exact fun _ h ↦ hrest (h ▸ rfl)
    · exact fun _ h ↦ hrest (h ▸ rfl)
  close_one := by
    intro rest hrest
    rw [readLongBasic]
    exact fun _ h ↦ hrest (h ▸ rfl)
  close_two := by
    intro rest
    rw [readLongBasic]
  quote := by
    intro tail htail
    rw [readLongBasic]
    · rfl
    · exact fun _ _ h ↦ htail ⟨_, h.symm⟩
    · exact fun _ _ h ↦ htail ⟨_, h.symm⟩
    · exact fun _ _ h ↦ htail ⟨_, h.symm⟩
    all_goals simp

theorem endsInThree_readLongLiteral (t : Dialect) : EndsInThree '\'' (readLongLiteral t) where
  close := by
    intro rest hrest
    rw [readLongLiteral]
    · exact fun _ h ↦ hrest (h ▸ rfl)
    · exact fun _ h ↦ hrest (h ▸ rfl)
  close_one := by
    intro rest hrest
    rw [readLongLiteral]
    exact fun _ h ↦ hrest (h ▸ rfl)
  close_two := by
    intro rest
    rw [readLongLiteral]
  quote := by
    intro tail htail
    rw [readLongLiteral]
    · rfl
    · exact fun _ _ h ↦ htail ⟨_, h.symm⟩
    · exact fun _ _ h ↦ htail ⟨_, h.symm⟩
    · exact fun _ _ h ↦ htail ⟨_, h.symm⟩
    all_goals simp

end

section

variable {cs rest : List Char} {run : ℕ} {q : Char}

theorem readBasic_escapedText (t : Dialect) (cs rest : List Char) (run : ℕ) :
    readBasic t (escapedText false run cs ++ '"' :: rest) = some (cs, rest) := by
  induction cs generalizing run with
  | nil => simp [escapedText, readBasic]
  | cons c cs ih =>
    simp only [escapedText, Bool.and_false, Bool.false_and, Bool.false_eq_true, if_false]
    rw [List.append_assoc, readBasic_escaped, ih, Option.map_some]

theorem head?_escaped_ne (c : Char) (tail : List Char) :
    (escaped c ++ tail).head? ≠ some '"' ∧ (escaped c ++ tail).head? ≠ some '\n' ∧
      (escaped c ++ tail).head? ≠ some '\r' := by
  obtain ⟨e, -, hescaped, -⟩ | ⟨a, b, d, e, hescaped, -⟩ | ⟨hquote, -, hcontrol, hescaped⟩ :=
    escaped_cases c
  · simp [hescaped]
  · simp [hescaped]
  · have hreturn : c ≠ '\r' := by
      intro h
      exact absurd (h ▸ hcontrol) (by decide)
    have hline : c ≠ '\n' := by
      intro h
      exact absurd (h ▸ hcontrol) (by decide)
    simp [hescaped, hquote, hreturn, hline]

theorem readLongBasic_line (t : Dialect) (tail : List Char) :
    readLongBasic t false ('\n' :: tail) =
      (readLongBasic t false tail).map fun (cs, r) ↦ ('\n' :: cs, r) := by
  rw [readLongBasic]
  · rfl
  all_goals simp

/-- Up to two double quotes are kept until it is known what follows them. -/
theorem readLongBasic_escapedText (t : Dialect) (hrest : rest.head? ≠ some '"') (hrun : run ≤ 2)
    (cs : List Char) :
    readLongBasic t false
        (List.replicate run '"' ++ (escapedText true run cs ++ '"' :: '"' :: '"' :: rest)) =
      some (List.replicate run '"' ++ cs, rest) := by
  have hends := endsInThree_readLongBasic t
  induction cs generalizing run with
  | nil =>
    rw [escapedText, List.nil_append, List.append_nil]
    exact hends.read_close hrun hrest
  | cons c cs ih =>
    rw [escapedText]
    split
    · next h =>
      simp only [Bool.and_true, Bool.and_eq_true, decide_eq_true_eq] at h
      obtain ⟨rfl, hless⟩ := h
      have hnext := ih (by omega : run + 1 ≤ 2)
      rw [List.replicate_succ'] at hnext
      simpa using hnext
    split
    · next h =>
      simp only [Bool.and_true, decide_eq_true_eq] at h
      subst h
      have hnext := ih (Nat.zero_le 2)
      rw [List.replicate_zero, List.nil_append, List.nil_append] at hnext
      rw [List.cons_append, hends.read_quotes hrun (by simp), readLongBasic_line, hnext]
      rfl
    · have hnext := ih (Nat.zero_le 2)
      rw [List.replicate_zero, List.nil_append, List.nil_append] at hnext
      rw [List.append_assoc, hends.read_quotes hrun (head?_escaped_ne c _).1, readLongBasic_escaped,
        hnext]
      rfl

theorem readLiteral_append (hcs : ∀ c ∈ cs, c ≠ '\'' ∧ isControl c = false) :
    readLiteral (cs ++ '\'' :: rest) = some (cs, rest) := by
  induction cs with
  | nil => rw [List.nil_append, readLiteral]
  | cons c cs ih =>
    obtain ⟨⟨hquote, hcontrol⟩, hcs⟩ := List.forall_mem_cons.1 hcs
    rw [List.cons_append, readLiteral, hcontrol, ih hcs]
    · rfl
    · simp [hquote]

theorem le_longestRun (q : Char) (run : ℕ) (cs : List Char) : run ≤ longestRun q run cs := by
  induction cs generalizing run with
  | nil => exact le_rfl
  | cons c cs ih =>
    rw [longestRun]
    split
    · exact (Nat.le_succ run).trans (ih (run + 1))
    · exact Nat.le_max_left _ _

theorem longestRun_eq_zero_iff : longestRun q 0 cs = 0 ↔ q ∉ cs := by
  induction cs with
  | nil => simp [longestRun]
  | cons c cs ih =>
    rw [longestRun]
    split
    · next h =>
      have hpos := le_longestRun q (0 + 1) cs
      simp only [h, List.mem_cons, true_or, not_true, iff_false]
      omega
    · next h => rw [Nat.max_eq_zero_iff, ih]; simp [Ne.symm h]

theorem readLongLiteral_append (t : Dialect) (hrest : rest.head? ≠ some '\'')
    (hcs : ∀ c ∈ cs, isControl c = false ∨ c = '\n') (hrun : longestRun '\'' run cs ≤ 2) :
    readLongLiteral t
        (List.replicate run '\'' ++ (cs ++ '\'' :: '\'' :: '\'' :: rest)) =
      some (List.replicate run '\'' ++ cs, rest) := by
  have hends := endsInThree_readLongLiteral t
  induction cs generalizing run with
  | nil =>
    rw [List.nil_append, List.append_nil]
    exact hends.read_close hrun hrest
  | cons c cs ih =>
    obtain ⟨hc, htail⟩ := List.forall_mem_cons.1 hcs
    rw [longestRun] at hrun
    split at hrun
    · next h =>
      subst h
      have hnext := ih htail hrun
      rw [List.replicate_succ'] at hnext
      simpa using hnext
    · next hquote =>
      obtain ⟨hless, hrun⟩ := Nat.max_le.1 hrun
      have hnext := ih htail hrun
      rw [List.replicate_zero, List.nil_append, List.nil_append] at hnext
      have hreturn : c ≠ '\r' := by
        intro h
        subst h
        exact absurd hc (by decide)
      have hplain : (isControl c && decide (c ≠ '\n')) = false := by
        obtain hc | rfl := hc
        · rw [hc]
          rfl
        · decide
      rw [List.cons_append, hends.read_quotes hless (by simpa using hquote), readLongLiteral,
        hplain, hnext]
      · rfl
      all_goals simp [hquote, hreturn]

theorem isControl_of_needsEscape {c : Char} (h : needsEscape c = false) :
    isControl c = false ∨ c = '\n' := by
  by_cases hline : c = '\n'
  · exact .inr hline
  · left
    simpa [needsEscape, isControl, hline] using h

theorem Quoting.of_eq_literal (h : Quoting.of cs = .literal) :
    ∀ c ∈ cs, c ≠ '\'' ∧ isControl c = false := by
  have hcs : cs.any needsEscape = false ∧ longestRun '\'' 0 cs = 0 ∧ cs.contains '\n' = false := by
    unfold Quoting.of at h
    dsimp only at h
    split at h
    · cases h
    split at h
    · next hcs => simpa [and_assoc] using hcs
    split at h
    · cases h
    split at h
    · cases h
    split at h <;> cases h
  obtain ⟨hescape, hquote, hline⟩ := hcs
  intro c hc
  refine ⟨fun h ↦ longestRun_eq_zero_iff.1 hquote (h ▸ hc), ?_⟩
  have hplain : needsEscape c = false := by simpa using List.any_eq_false.1 hescape c hc
  obtain hcontrol | rfl := isControl_of_needsEscape hplain
  · exact hcontrol
  · simp [hc] at hline

theorem Quoting.of_eq_longLiteral (h : Quoting.of cs = .longLiteral) :
    longestRun '\'' 0 cs ≤ 2 ∧ ∀ c ∈ cs, isControl c = false ∨ c = '\n' := by
  have hcs : cs.any needsEscape = false ∧ longestRun '\'' 0 cs ≤ 2 := by
    unfold Quoting.of at h
    dsimp only at h
    split at h
    · cases h
    split at h
    · cases h
    split at h
    · cases h
    split at h
    · next hcs => simpa [and_assoc] using hcs
    split at h <;> cases h
  refine ⟨hcs.2, fun c hc ↦ isControl_of_needsEscape ?_⟩
  simpa using List.any_eq_false.1 hcs.1 c hc

theorem skipLineEnd_append (start : String) (body : List Char)
    (hstart : start = "\n" ∨ start = "" ∧ body.head? ≠ some '\n' ∧ body.head? ≠ some '\r') :
    skipLineEnd (start.toList ++ body) = body := by
  obtain rfl | ⟨rfl, hline, hreturn⟩ := hstart
  · rfl
  · change skipLineEnd body = body
    unfold skipLineEnd
    split
    · simp at hline
    · simp at hreturn
    · rfl

theorem head?_escapedText_ne (tail : List Char) (hcs : '\n' ∉ cs) :
    (escapedText true 0 cs ++ '"' :: tail).head? ≠ some '\n' ∧
      (escapedText true 0 cs ++ '"' :: tail).head? ≠ some '\r' := by
  cases cs with
  | nil => simp [escapedText]
  | cons c cs =>
    rw [escapedText]
    split
    · next h =>
      simp only [Bool.and_eq_true, decide_eq_true_eq] at h
      simp [h.1.1]
    split
    · next h =>
      simp only [Bool.and_true, decide_eq_true_eq] at h
      simp [h] at hcs
    · rw [List.append_assoc]
      exact (head?_escaped_ne c _).2

theorem readText_longBasic (t : Dialect) (cs : List Char) :
    readText t ('"' :: '"' :: '"' :: cs) = readLongBasic t false (skipLineEnd cs) := by
  rw [readText]

theorem readText_basic (t : Dialect) (hcs : ¬ ['"', '"'] <+: cs) :
    readText t ('"' :: cs) = readBasic t cs := by
  rw [readText]
  exact fun _ h ↦ hcs ⟨_, h.symm⟩

theorem readText_longLiteral (t : Dialect) (cs : List Char) :
    readText t ('\'' :: '\'' :: '\'' :: cs) = readLongLiteral t (skipLineEnd cs) := by
  rw [readText]

theorem readText_literal (t : Dialect) (hcs : ¬ ['\'', '\''] <+: cs) :
    readText t ('\'' :: cs) = readLiteral cs := by
  rw [readText]
  exact fun _ h ↦ hcs ⟨_, h.symm⟩

def lineStart (cs : List Char) : String := if cs.contains '\n' then "\n" else ""

theorem lineStart_cases (cs : List Char) :
    lineStart cs = "\n" ∨ lineStart cs = "" ∧ '\n' ∉ cs := by
  unfold lineStart
  split
  · exact .inl rfl
  · next h => exact .inr ⟨rfl, by simpa using h⟩

theorem readText_basicValue (t : Dialect) (cs : List Char) (hrest : rest.head? ≠ some '"') :
    readText t ('"' :: (escapedText false 0 cs ++ '"' :: rest)) = some (cs, rest) := by
  rw [readText_basic, readBasic_escapedText]
  intro hprefix
  obtain ⟨tail, htail⟩ := hprefix
  cases cs with
  | nil =>
    rw [escapedText, List.nil_append] at htail
    rw [← (List.cons.inj htail).2] at hrest
    exact hrest rfl
  | cons c cs =>
    have hhead := (head?_escaped_ne c (escapedText false 0 cs ++ '"' :: rest)).1
    simp only [escapedText, Bool.and_false, Bool.false_and, Bool.false_eq_true, if_false] at htail
    rw [List.append_assoc] at htail
    rw [← htail] at hhead
    exact hhead rfl

theorem readText_literalValue (t : Dialect) (hcs : ∀ c ∈ cs, c ≠ '\'' ∧ isControl c = false)
    (hrest : rest.head? ≠ some '\'') :
    readText t ('\'' :: (cs ++ '\'' :: rest)) = some (cs, rest) := by
  rw [readText_literal, readLiteral_append hcs]
  intro hprefix
  obtain ⟨tail, htail⟩ := hprefix
  cases cs with
  | nil =>
    rw [← (List.cons.inj htail).2] at hrest
    exact hrest rfl
  | cons c cs => exact (hcs c List.mem_cons_self).1 (List.cons.inj htail).1.symm

theorem readText_longBasicValue (t : Dialect) (cs : List Char) (hrest : rest.head? ≠ some '"') :
    readText t ('"' :: '"' :: '"' :: ((lineStart cs).toList ++
      (escapedText true 0 cs ++ '"' :: '"' :: '"' :: rest))) = some (cs, rest) := by
  have hread := readLongBasic_escapedText t hrest (Nat.zero_le 2) cs
  rw [readText_longBasic, skipLineEnd_append]
  · exact hread
  · obtain hstart | ⟨hstart, hline⟩ := lineStart_cases cs
    · exact .inl hstart
    · exact .inr ⟨hstart, head?_escapedText_ne _ hline⟩

theorem readText_longLiteralValue (t : Dialect) (hrest : rest.head? ≠ some '\'')
    (hcs : ∀ c ∈ cs, isControl c = false ∨ c = '\n') (hrun : longestRun '\'' 0 cs ≤ 2) :
    readText t ('\'' :: '\'' :: '\'' :: ((lineStart cs).toList ++
      (cs ++ '\'' :: '\'' :: '\'' :: rest))) = some (cs, rest) := by
  have hread := readLongLiteral_append t hrest hcs hrun
  rw [readText_longLiteral, skipLineEnd_append]
  · exact hread
  · obtain hstart | ⟨hstart, hline⟩ := lineStart_cases cs
    · exact .inl hstart
    · refine .inr ⟨hstart, ?_⟩
      cases cs with
      | nil => simp
      | cons c cs =>
        obtain hc | rfl := hcs c List.mem_cons_self
        · constructor <;>
          · intro h
            rw [List.cons_append, List.head?_cons, Option.some_inj] at h
            exact absurd (h ▸ hc) (by decide)
        · exact absurd List.mem_cons_self hline

/-- A text is read off its value, unless more quotes follow. -/
theorem readText_textValue (t : Dialect) (s : String)
    (hrest : rest.head? ≠ some '"' ∧ rest.head? ≠ some '\'') :
    readText t ((textValue s).toList ++ rest) = some (s.toList, rest) := by
  cases h : Quoting.of s.toList with
  | basic => simpa [textValue, h] using readText_basicValue t s.toList hrest.1
  | literal =>
    simpa [textValue, h] using readText_literalValue t (Quoting.of_eq_literal h) hrest.2
  | longBasic =>
    simpa [textValue, h, lineStart] using readText_longBasicValue t s.toList hrest.1
  | longLiteral =>
    obtain ⟨hrun, hcs⟩ := Quoting.of_eq_longLiteral h
    simpa [textValue, h, lineStart] using readText_longLiteralValue t hrest.2 hcs hrun

end

end CovarianceSearch.Toml
