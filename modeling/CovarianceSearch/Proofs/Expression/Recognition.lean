import CovarianceSearch.Proofs.Expression.Derivation

namespace CovarianceSearch

namespace Token

theorem Scans.exists_name {d : Char} {cs : List Char} {ts : List Token} (h : Scans (d :: cs) ts)
    (hd : isWord d = true) : ∃ w rest us, d :: cs = w ++ rest ∧ ts = .name (String.ofList w) :: us ∧
      (∀ c ∈ w, isWord c = true) ∧ (∀ c ∈ rest.head?, isWord c = false) ∧ Scans rest us := by
  -- The list of characters is an index of the relation, so it is set apart first.
  generalize htext : d :: cs = text at h
  cases h with
  | nil => cases htext
  | blank hc =>
    cases htext
    rw [isBlank_of_isWord hd] at hc
    cases hc
  | sign hc =>
    cases htext
    rw [ofSign?_of_isWord hd] at hc
    cases hc
  | name hne hw hnext hcs => exact ⟨_, _, _, rfl, rfl, hw, hnext, hcs⟩

theorem Scans.consWord {c : Char} {cs : List Char} {ts : List Token} (hc : isWord c = true)
    (h : Scans cs ts) : Scans (c :: cs) (consWord c (cs.head?.any isWord) ts) := by
  have hsingle : ∀ b ∈ [c], isWord b = true := by simpa using hc
  cases cs with
  | nil =>
    have hname : Scans ([c] ++ []) (.name (String.ofList [c]) :: ts) :=
      .name (List.cons_ne_nil c []) hsingle (by simp) h
    rw [List.head?_nil, Option.any_none, consWord_false]
    exact hname
  | cons d cs =>
    rw [List.head?_cons, Option.any_some]
    by_cases hd : isWord d = true
    · obtain ⟨w, rest, us, hcs, rfl, hw, hnext, hrest⟩ := h.exists_name hd
      have hword : ∀ b ∈ c :: w, isWord b = true := by simpa using ⟨hc, hw⟩
      rw [hd, consWord_true, hcs]
      exact .name (List.cons_ne_nil c w) hword hnext hrest
    · rw [Bool.eq_false_iff.2 hd, consWord_false]
      exact .name (w := [c]) (List.cons_ne_nil c []) hsingle (by simpa using hd) h

theorem scans_of_scan {position : Nat} {cs : List Char} {ts : List Token}
    (h : scan position cs = .ok ts) : Scans cs ts := by
  induction cs generalizing position ts with
  | nil =>
    cases h
    exact .nil
  | cons c cs ih =>
    rw [scan] at h
    split at h
    · next hblank => exact .blank hblank (ih h)
    · split at h
      · next token hsign =>
        rw [map_eq_pure_bind] at h
        obtain ⟨us, hus, h⟩ := Outcome.bind_eq_ok_iff.1 h
        cases h
        exact .sign hsign (ih hus)
      · split at h
        · next hword =>
          rw [map_eq_pure_bind] at h
          obtain ⟨us, hus, h⟩ := Outcome.bind_eq_ok_iff.1 h
          cases h
          exact (ih hus).consWord hword
        · cases h

theorem Scans.unique {cs : List Char} {ts us : List Token} (h : Scans cs ts) (h' : Scans cs us) :
    ts = us :=
  Except.ok.inj ((h.scan_eq 0).symm.trans (h'.scan_eq 0))

end Token

namespace Expression

theorem Derives.unique {ts : List Token} {e e' : Expression} (h : Derives .sum ts e)
    (h' : Derives .sum ts e') : e = e' :=
  Except.ok.inj (h.ofTokens_eq.symm.trans h'.ofTokens_eq)

theorem parse_eq_ok_iff {s : String} {e : Expression} :
    parse s = .ok e ↔ ∃ ts, Token.Scans s.toList ts ∧ Derives .sum ts e := by
  constructor
  · intro h
    obtain ⟨ts, hts, hderives⟩ := derives_of_parse h
    exact ⟨ts, Token.scans_of_scan hts, hderives⟩
  · rintro ⟨ts, hts, hderives⟩
    exact parse_eq_ok hts hderives

theorem input_of_parse_eq_error {s : String} {err : ParseError} (h : parse s = .error err) :
    err.input = s := by
  unfold parse at h
  cases hread : Token.scan 0 s.toList >>= ofTokens with
  | ok e =>
    rw [hread] at h
    cases h
  | error fault =>
    rw [hread] at h
    cases h
    rfl

/-- The reader accepts exactly the texts that are made of tokens from which an expression can be
derived. There is one way to divide such a text and one expression for its tokens, which is what is
read. Every other text is refused as it stands. -/
theorem parse_recognizes (s : String) :
    (∀ e, parse s = .ok e ↔ ∃ ts, Token.Scans s.toList ts ∧ Derives .sum ts e) ∧
      ((∃! p : List Token × Expression, Token.Scans s.toList p.1 ∧ Derives .sum p.1 p.2) ∨
        (¬ ∃ p : List Token × Expression, Token.Scans s.toList p.1 ∧ Derives .sum p.1 p.2) ∧
          ∃ fault, parse s = .error ⟨fault, s⟩) := by
  refine ⟨fun e ↦ parse_eq_ok_iff, ?_⟩
  cases h : parse s with
  | ok e =>
    obtain ⟨ts, hts, hderives⟩ := parse_eq_ok_iff.1 h
    refine .inl ⟨(ts, e), ⟨hts, hderives⟩, ?_⟩
    rintro ⟨ts', e'⟩ ⟨hts', hderives'⟩
    obtain rfl := hts.unique hts'
    rw [hderives.unique hderives']
  | error err =>
    refine .inr ⟨?_, err.fault, ?_⟩
    · rintro ⟨⟨ts, e⟩, hts, hderives⟩
      rw [parse_eq_ok hts hderives] at h
      cases h
    · obtain rfl := input_of_parse_eq_error h
      rfl

end Expression

end CovarianceSearch
