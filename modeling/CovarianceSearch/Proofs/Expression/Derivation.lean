import CovarianceSearch.Proofs.Expression.Printable

namespace CovarianceSearch.Expression

/-- Whatever is read from `ts` can be derived from the tokens that were taken. The terms of a sum go
on with what has been derived before them. -/
structure Derivable (ts : List Token) : Prop where
  atom : ∀ {e rest}, Reads (readAtom ts) e rest → ∃ us, ts = us ++ rest ∧ Derives .atom us e
  terms : ∀ {e total us rest}, Derives .sum us e → Reads (readTerms e ts) total rest →
    ∃ vs, ts = vs ++ rest ∧ Derives .sum (us ++ vs) total
  expression : ∀ {e rest}, Reads (readExpression ts) e rest →
    ∃ us, ts = us ++ rest ∧ Derives .sum us e

variable {ts rest : List Token} {e : Expression}

theorem derives_of_reads_atom (ih : ∀ us : List Token, us.length < ts.length → Derivable us)
    (h : Reads (readAtom ts) e rest) : ∃ us, ts = us ++ rest ∧ Derives .atom us e := by
  by_cases hchange : ∃ word us change, ts = .name word :: .openBracket :: us ∧
      change? word = some change
  · obtain ⟨word, us, change, rfl, hword⟩ := hchange
    obtain ⟨a, b, vs, ha, hb, rfl⟩ := (reads_atom_change_iff hword).1 h
    have hus : us.length < (Token.name word :: .openBracket :: us).length := by
      simp only [List.length_cons]
      omega
    obtain ⟨as, rfl, hfirst⟩ := (ih us hus).expression ha
    have hvs : vs.length < (Token.name word :: .openBracket :: (as ++ .comma :: vs)).length := by
      simp only [List.length_cons, List.length_append]
      omega
    obtain ⟨bs, rfl, hsecond⟩ := (ih vs hvs).expression hb
    refine ⟨.name word :: .openBracket :: as ++ .comma :: bs ++ [.closeBracket], by simp, ?_⟩
    exact .change hword hfirst hsecond
  · have hnone : ∀ word us, ts = .name word :: .openBracket :: us → change? word = none := by
      intro word us hts
      by_contra hword
      obtain ⟨change, hsome⟩ := Option.ne_none_iff_exists'.1 hword
      exact hchange ⟨word, us, change, hts, hsome⟩
    obtain ⟨k, rfl, hk⟩ := (reads_atom_iff hnone).1 h
    obtain ⟨word, rfl, hword⟩ := reads_baseKernel_iff.1 hk
    exact ⟨[.name word], rfl, .kernel hword⟩

theorem derives_of_reads_factor {left : Expression} {ls : List Token}
    (hleft : Derives .sum ls left) (ih : Derivable ts) (h : Reads (readFactor left ts) e rest) :
    ∃ us, ts = us ++ rest ∧
      Derives .item (.openBracket :: ls ++ .closeBracket :: .star :: us) e := by
  by_cases hbracket : ∃ us, ts = .openBracket :: us
  · obtain ⟨us, rfl⟩ := hbracket
    obtain ⟨a, b, rfl, hlax⟩ := reads_factor_bracket_iff.1 h
    obtain ⟨word, word', rfl, ha, hb, hconstant⟩ := reads_laxFactor_iff.1 hlax
    exact ⟨[.openBracket, .name word, .plus, .name word', .closeBracket], rfl,
      .laxMul hleft ha hb hconstant⟩
  · obtain ⟨right, rfl, hright⟩ := (reads_factor_iff (not_exists.1 hbracket)).1 h
    obtain ⟨us, rfl, hatom⟩ := ih.atom hright
    exact ⟨us, rfl, .mul hleft hatom⟩

theorem derives_of_reads_item (ih : ∀ us : List Token, us.length < ts.length → Derivable us)
    (h : Reads (readItem ts) e rest) : ∃ us, ts = us ++ rest ∧ Derives .item us e := by
  by_cases hbracket : ∃ us, ts = .openBracket :: us
  · obtain ⟨us, rfl⟩ := hbracket
    obtain ⟨left, vs, hread, hfactor⟩ := reads_item_bracket_iff.1 h
    obtain ⟨ls, rfl, hleft⟩ := (ih us (by simp)).expression hread
    have hvs : vs.length <
        (Token.openBracket :: (ls ++ .closeBracket :: .star :: vs)).length := by
      simp only [List.length_cons, List.length_append]
      omega
    obtain ⟨us, rfl, hitem⟩ := derives_of_reads_factor hleft (ih vs hvs) hfactor
    exact ⟨.openBracket :: ls ++ .closeBracket :: .star :: us, by simp, hitem⟩
  · have hatom := (reads_item_iff (not_exists.1 hbracket)).1 h
    obtain ⟨us, hus, hatom⟩ := derives_of_reads_atom ih hatom
    exact ⟨us, hus, .item hatom⟩

theorem derives_of_reads_terms (ih : ∀ us : List Token, us.length < ts.length → Derivable us)
    {total : Expression} {us : List Token} (he : Derives .sum us e)
    (h : Reads (readTerms e ts) total rest) :
    ∃ vs, ts = vs ++ rest ∧ Derives .sum (us ++ vs) total := by
  by_cases hplus : ∃ vs, ts = .plus :: vs
  · obtain ⟨vs, rfl⟩ := hplus
    obtain ⟨term, r, hread, hrest⟩ := reads_terms_plus_iff.1 h
    obtain ⟨ws, rfl, hterm⟩ := (ih vs (by simp)).atom hread
    have hr : r.length < (Token.plus :: (ws ++ r)).length := by
      simp only [List.length_cons, List.length_append]
      omega
    obtain ⟨xs, rfl, htotal⟩ := (ih r hr).terms (he.add hterm) hrest
    refine ⟨.plus :: ws ++ xs, by simp, ?_⟩
    rwa [← List.append_assoc]
  · obtain ⟨rfl, rfl⟩ := (reads_terms_iff (not_exists.1 hplus)).1 h
    exact ⟨[], rfl, by rwa [List.append_nil]⟩

theorem derives_of_reads_expression
    (ih : ∀ us : List Token, us.length < ts.length → Derivable us)
    (h : Reads (readExpression ts) e rest) : ∃ us, ts = us ++ rest ∧ Derives .sum us e := by
  obtain ⟨first, r, hfirst, hterms⟩ := reads_expression_iff.1 h
  have hr : r.length < ts.length := hfirst.1
  obtain ⟨us, rfl, hitem⟩ := derives_of_reads_item ih hfirst
  obtain ⟨vs, rfl, htotal⟩ := (ih r hr).terms (.sum hitem) hterms
  exact ⟨us ++ vs, (List.append_assoc ..).symm, htotal⟩

theorem derivable (ts : List Token) : Derivable ts := by
  -- Every reader that is called in turn has fewer tokens before it.
  induction hn : ts.length using Nat.strong_induction_on generalizing ts with
  | _ n ih =>
    have ih : ∀ us : List Token, us.length < ts.length → Derivable us :=
      fun us hus ↦ ih us.length (hn ▸ hus) us rfl
    constructor
    · exact derives_of_reads_atom ih
    · exact derives_of_reads_terms ih
    · exact derives_of_reads_expression ih

theorem derives_of_parse {text : String} (h : parse text = .ok e) :
    ∃ ts, Token.scan 0 text.toList = .ok ts ∧ Derives .sum ts e := by
  obtain ⟨ts, hts, h⟩ := Outcome.bind_eq_ok_iff.1 (Outcome.mapError_eq_ok_iff.1 h)
  obtain ⟨⟨e', r, hr⟩, hread, h⟩ := Outcome.bind_eq_ok_iff.1 h
  dsimp only at h
  split at h
  · cases h
    obtain ⟨us, rfl, hderives⟩ := (derivable ts).expression ⟨hr, hread⟩
    exact ⟨us, by rwa [List.append_nil] at hts, hderives⟩
  · cases h

theorem eq_of_change? {word : String} {change : Expression → Expression → Expression}
    (h : change? word = some change) : change = .changePoint ∨ change = .changeWindow := by
  unfold change? at h
  split at h
  · exact .inl (Option.some_inj.1 h).symm
  · exact .inr (Option.some_inj.1 h).symm
  · cases h

theorem Derives.printable {phrase : Phrase} (h : Derives phrase ts e) : Printable phrase e := by
  induction h with
  | kernel hk => exact .kernel (BaseKernel.isNamed_of_ofName? hk)
  | change hword _ _ iha ihb =>
    rcases eq_of_change? hword with rfl | rfl
    · exact .changePoint iha ihb
    · exact .changeWindow iha ihb
  | item _ ih => exact .item ih
  | mul _ _ ihl ihr => exact .mul ihl ihr
  | laxMul _ ha hb hconstant ih =>
    exact .laxMul ih (BaseKernel.isNamed_of_ofName? ha) (BaseKernel.isNamed_of_ofName? hb) hconstant
  | sum _ ih => exact .sum ih
  | add _ _ ihl ihr => exact .add ihl ihr

theorem printable_of_parse {text : String} (h : parse text = .ok e) : e.Printable .sum := by
  obtain ⟨ts, -, hderives⟩ := derives_of_parse h
  exact hderives.printable

end CovarianceSearch.Expression
