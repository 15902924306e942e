import CovarianceSearch.Expression.Parse
import CovarianceSearch.Proofs.Expression.Scan
import CovarianceSearch.Proofs.Outcome

namespace CovarianceSearch.Expression

variable {α β : Type} {P : List Token → Prop}

inductive Phrase
  | atom
  | item
  | sum

/-- The tokens that may be read as an expression, phrase by phrase. -/
inductive Derives : Phrase → List Token → Expression → Prop
  | kernel {word : String} {k : BaseKernel} :
      BaseKernel.ofName? word = some k → Derives .atom [.name word] (.kernel k)
  | change {word : String} {change : Expression → Expression → Expression} {ts us : List Token}
      {a b : Expression} : change? word = some change → Derives .sum ts a → Derives .sum us b →
      Derives .atom (.name word :: .openBracket :: ts ++ .comma :: us ++ [.closeBracket])
        (change a b)
  | item {ts : List Token} {e : Expression} : Derives .atom ts e → Derives .item ts e
  | mul {ts us : List Token} {l r : Expression} : Derives .sum ts l → Derives .atom us r →
      Derives .item (.openBracket :: ts ++ .closeBracket :: .star :: us) (.mul l r)
  | laxMul {ts : List Token} {l : Expression} {word word' : String} {a b : BaseKernel} :
      Derives .sum ts l → BaseKernel.ofName? word = some a → BaseKernel.ofName? word' = some b →
      (a = .constant ∨ b = .constant) →
      Derives .item (.openBracket :: ts ++ [.closeBracket, .star, .openBracket, .name word, .plus,
        .name word', .closeBracket]) (.laxMul l a b)
  | sum {ts : List Token} {e : Expression} : Derives .item ts e → Derives .sum ts e
  | add {ts us : List Token} {l r : Expression} : Derives .sum ts l → Derives .atom us r →
      Derives .sum (ts ++ .plus :: us) (.add l r)

def Reads (r : Except ExpressionFault (α × { rest // P rest })) (a : α) (rest : List Token) :
    Prop :=
  ∃ h, r = .ok (a, ⟨rest, h⟩)

theorem reads_ok_iff {x : α × { rest // P rest }} {a : α} {rest : List Token} :
    Reads (.ok x) a rest ↔ x.1 = a ∧ x.2.1 = rest := by
  obtain ⟨b, r, hr⟩ := x
  constructor
  · rintro ⟨h, he⟩
    cases he
    exact ⟨rfl, rfl⟩
  · rintro ⟨rfl, rfl⟩
    exact ⟨hr, rfl⟩

theorem reads_bind_iff {r : Except ExpressionFault β}
    {f : β → Except ExpressionFault (α × { rest // P rest })} {a : α} {rest : List Token} :
    Reads (r >>= f) a rest ↔ ∃ x, r = .ok x ∧ Reads (f x) a rest := by
  cases r with
  | error e => simp [Reads, bind, Except.bind]
  | ok x => simp [bind, Except.bind]

theorem expect_eq_ok_iff {t : Token} {ts : List Token} {r : Rest ts} :
    expect t ts = .ok r ↔ ts = t :: r.1 := by
  obtain ⟨rest, h⟩ := r
  cases ts with
  | nil => simp [expect]
  | cons u ts =>
    by_cases hu : u = t
    · simp [expect, hu]
    · simp [expect, hu]

theorem reads_baseKernel_iff {ts : List Token} {k : BaseKernel} {rest : List Token} :
    Reads (baseKernel ts) k rest ↔
      ∃ word, ts = .name word :: rest ∧ BaseKernel.ofName? word = some k := by
  unfold baseKernel
  split
  · next word us =>
    cases hk : BaseKernel.ofName? word with
    | none => simp [Reads, hk]
    | some k' => simp [reads_ok_iff, hk, and_comm]
  · next hts =>
    have hnone : ¬ ∃ word, ts = .name word :: rest ∧ BaseKernel.ofName? word = some k :=
      fun ⟨word, he, _⟩ ↦ hts word rest he
    simpa [Reads] using hnone

theorem reads_expression_iff {ts : List Token} {e : Expression} {rest : List Token} :
    Reads (readExpression ts) e rest ↔
      ∃ first r, Reads (readItem ts) first r ∧ Reads (readTerms first r) e rest := by
  rw [readExpression, reads_bind_iff]
  constructor
  · rintro ⟨⟨first, r, hr⟩, hitem, h⟩
    obtain ⟨⟨e', s, hs⟩, hterms, h⟩ := reads_bind_iff.1 h
    obtain ⟨rfl, rfl⟩ := reads_ok_iff.1 h
    exact ⟨first, r, ⟨hr, hitem⟩, hs, hterms⟩
  · rintro ⟨first, r, ⟨hr, hitem⟩, hs, hterms⟩
    exact ⟨_, hitem, reads_bind_iff.2 ⟨_, hterms, reads_ok_iff.2 ⟨rfl, rfl⟩⟩⟩

theorem reads_terms_plus_iff {e total : Expression} {ts rest : List Token} :
    Reads (readTerms e (.plus :: ts)) total rest ↔
      ∃ term r, Reads (readAtom ts) term r ∧ Reads (readTerms (.add e term) r) total rest := by
  rw [readTerms, reads_bind_iff]
  constructor
  · rintro ⟨⟨term, r, hr⟩, hatom, h⟩
    obtain ⟨⟨e', s, hs⟩, hterms, h⟩ := reads_bind_iff.1 h
    obtain ⟨rfl, rfl⟩ := reads_ok_iff.1 h
    exact ⟨term, r, ⟨hr, hatom⟩, hs, hterms⟩
  · rintro ⟨term, r, ⟨hr, hatom⟩, hs, hterms⟩
    exact ⟨_, hatom, reads_bind_iff.2 ⟨_, hterms, reads_ok_iff.2 ⟨rfl, rfl⟩⟩⟩

theorem reads_terms_iff {e total : Expression} {ts rest : List Token}
    (h : ∀ us, ts ≠ .plus :: us) : Reads (readTerms e ts) total rest ↔ total = e ∧ rest = ts := by
  rw [readTerms]
  · exact reads_ok_iff.trans (and_congr eq_comm eq_comm)
  · exact h

theorem reads_item_bracket_iff {ts rest : List Token} {e : Expression} :
    Reads (readItem (.openBracket :: ts)) e rest ↔
      ∃ left us, Reads (readExpression ts) left (.closeBracket :: .star :: us) ∧
        Reads (readFactor left us) e rest := by
  rw [readItem, reads_bind_iff]
  constructor
  · rintro ⟨⟨left, r, hr⟩, hleft, h⟩
    obtain ⟨⟨s, hs⟩, hclose, h⟩ := reads_bind_iff.1 h
    obtain ⟨⟨u, hu⟩, hstar, h⟩ := reads_bind_iff.1 h
    obtain ⟨⟨e', v, hv⟩, hfactor, h⟩ := reads_bind_iff.1 h
    obtain ⟨rfl, rfl⟩ := reads_ok_iff.1 h
    obtain rfl : r = _ :: s := expect_eq_ok_iff.1 hclose
    obtain rfl : s = _ :: u := expect_eq_ok_iff.1 hstar
    exact ⟨left, u, ⟨hr, hleft⟩, hv, hfactor⟩
  · rintro ⟨left, us, ⟨hr, hleft⟩, hv, hfactor⟩
    refine ⟨_, hleft, reads_bind_iff.2 ⟨⟨.star :: us, by simp⟩, expect_eq_ok_iff.2 rfl, ?_⟩⟩
    refine reads_bind_iff.2 ⟨⟨us, by simp⟩, expect_eq_ok_iff.2 rfl, ?_⟩
    exact reads_bind_iff.2 ⟨_, hfactor, reads_ok_iff.2 ⟨rfl, rfl⟩⟩

theorem reads_item_iff {ts rest : List Token} {e : Expression} (h : ∀ us, ts ≠ .openBracket :: us) :
    Reads (readItem ts) e rest ↔ Reads (readAtom ts) e rest := by
  rw [readItem]
  exact h

theorem reads_laxFactor_iff {ts rest : List Token} {a b : BaseKernel} :
    Reads (laxFactor ts) (a, b) rest ↔ ∃ word word',
      ts = .name word :: .plus :: .name word' :: .closeBracket :: rest ∧
        BaseKernel.ofName? word = some a ∧ BaseKernel.ofName? word' = some b ∧
          (a = .constant ∨ b = .constant) := by
  rw [laxFactor, reads_bind_iff]
  constructor
  · rintro ⟨⟨a', r, hr⟩, ha, h⟩
    obtain ⟨⟨s, hs⟩, hplus, h⟩ := reads_bind_iff.1 h
    obtain ⟨⟨b', u, hu⟩, hb, h⟩ := reads_bind_iff.1 h
    obtain ⟨⟨v, hv⟩, hclose, h⟩ := reads_bind_iff.1 h
    obtain ⟨word, rfl, hword⟩ := reads_baseKernel_iff.1 ⟨hr, ha⟩
    obtain rfl : r = _ :: s := expect_eq_ok_iff.1 hplus
    obtain ⟨word', rfl, hword'⟩ := reads_baseKernel_iff.1 ⟨hu, hb⟩
    obtain rfl : u = _ :: v := expect_eq_ok_iff.1 hclose
    dsimp only at h
    by_cases hconstant : a' ≠ .constant ∧ b' ≠ .constant
    · rw [if_pos hconstant] at h
      obtain ⟨_, h⟩ := h
      cases h
    · rw [if_neg hconstant] at h
      obtain ⟨he, rfl⟩ := reads_ok_iff.1 h
      cases he
      exact ⟨word, word', rfl, hword, hword', by tauto⟩
  · rintro ⟨word, word', rfl, ha, hb, hconstant⟩
    obtain ⟨hr, hread⟩ := reads_baseKernel_iff.2 ⟨word, rfl, ha⟩
    obtain ⟨hu, hread'⟩ := reads_baseKernel_iff.2 ⟨word', rfl, hb⟩
    refine ⟨_, hread, reads_bind_iff.2 ⟨⟨_, by simp⟩, expect_eq_ok_iff.2 rfl, ?_⟩⟩
    refine reads_bind_iff.2 ⟨_, hread', reads_bind_iff.2 ⟨⟨_, by simp⟩, expect_eq_ok_iff.2 rfl, ?_⟩⟩
    dsimp only
    rw [if_neg (by tauto)]
    exact reads_ok_iff.2 ⟨rfl, rfl⟩

theorem reads_factor_bracket_iff {left e : Expression} {ts rest : List Token} :
    Reads (readFactor left (.openBracket :: ts)) e rest ↔
      ∃ a b, e = .laxMul left a b ∧ Reads (laxFactor ts) (a, b) rest := by
  rw [readFactor, reads_bind_iff]
  constructor
  · rintro ⟨⟨⟨a, b⟩, r, hr⟩, hlax, h⟩
    obtain ⟨rfl, rfl⟩ := reads_ok_iff.1 h
    exact ⟨a, b, rfl, hr, hlax⟩
  · rintro ⟨a, b, rfl, hr, hlax⟩
    exact ⟨_, hlax, reads_ok_iff.2 ⟨rfl, rfl⟩⟩

theorem reads_factor_iff {left e : Expression} {ts rest : List Token}
    (h : ∀ us, ts ≠ .openBracket :: us) :
    Reads (readFactor left ts) e rest ↔
      ∃ right, e = .mul left right ∧ Reads (readAtom ts) right rest := by
  rw [readFactor, reads_bind_iff]
  · constructor
    · rintro ⟨⟨right, r, hr⟩, hright, h⟩
      obtain ⟨rfl, rfl⟩ := reads_ok_iff.1 h
      exact ⟨right, rfl, hr, hright⟩
    · rintro ⟨right, rfl, hr, hright⟩
      exact ⟨_, hright, reads_ok_iff.2 ⟨rfl, rfl⟩⟩
  · exact h

theorem change?_of_ofName? {word : String} {k : BaseKernel}
    (h : BaseKernel.ofName? word = some k) : change? word = none := by
  unfold change?
  split
  · rw [show BaseKernel.ofName? "cp" = none by decide] at h
    cases h
  · rw [show BaseKernel.ofName? "cw" = none by decide] at h
    cases h
  · rfl

theorem reads_atom_change_iff {word : String} {change : Expression → Expression → Expression}
    (hword : change? word = some change) {ts rest : List Token} {e : Expression} :
    Reads (readAtom (.name word :: .openBracket :: ts)) e rest ↔
      ∃ a b us, Reads (readExpression ts) a (.comma :: us) ∧
        Reads (readExpression us) b (.closeBracket :: rest) ∧ e = change a b := by
  rw [readAtom]
  split
  · next change' hword' =>
    obtain rfl : change = change' := Option.some_inj.1 (hword.symm.trans hword')
    rw [reads_bind_iff]
    constructor
    · rintro ⟨⟨a, r, hr⟩, ha, h⟩
      obtain ⟨⟨s, hs⟩, hcomma, h⟩ := reads_bind_iff.1 h
      obtain ⟨⟨b, u, hu⟩, hb, h⟩ := reads_bind_iff.1 h
      obtain ⟨⟨v, hv⟩, hclose, h⟩ := reads_bind_iff.1 h
      obtain ⟨rfl, rfl⟩ := reads_ok_iff.1 h
      obtain rfl : r = _ :: s := expect_eq_ok_iff.1 hcomma
      obtain rfl : u = _ :: v := expect_eq_ok_iff.1 hclose
      exact ⟨a, b, s, ⟨hr, ha⟩, ⟨hu, hb⟩, rfl⟩
    · rintro ⟨a, b, us, ⟨hr, ha⟩, ⟨hu, hb⟩, rfl⟩
      refine ⟨_, ha, reads_bind_iff.2 ⟨⟨us, by simp⟩, expect_eq_ok_iff.2 rfl, ?_⟩⟩
      refine reads_bind_iff.2 ⟨_, hb, reads_bind_iff.2 ⟨⟨rest, by simp⟩, ?_, ?_⟩⟩
      · exact expect_eq_ok_iff.2 rfl
      · exact reads_ok_iff.2 ⟨rfl, rfl⟩
  · next hword' =>
    rw [hword'] at hword
    cases hword

theorem reads_kernel_iff {ts rest : List Token} {e : Expression} :
    Reads (baseKernel ts >>= fun (k, r) ↦ return (.kernel k, r)) e rest ↔
      ∃ k, e = .kernel k ∧ Reads (baseKernel ts) k rest := by
  rw [reads_bind_iff]
  constructor
  · rintro ⟨⟨k, r, hr⟩, hk, h⟩
    obtain ⟨rfl, rfl⟩ := reads_ok_iff.1 h
    exact ⟨k, rfl, hr, hk⟩
  · rintro ⟨k, rfl, hr, hk⟩
    exact ⟨_, hk, reads_ok_iff.2 ⟨rfl, rfl⟩⟩

theorem reads_atom_iff {ts rest : List Token} {e : Expression}
    (h : ∀ word us, ts = .name word :: .openBracket :: us → change? word = none) :
    Reads (readAtom ts) e rest ↔ ∃ k, e = .kernel k ∧ Reads (baseKernel ts) k rest := by
  unfold readAtom
  split
  · next word us =>
    split
    · next change hword =>
      rw [h word us rfl] at hword
      cases hword
    · exact reads_kernel_iff
  · exact reads_kernel_iff

theorem Derives.head_atom {ts : List Token} {e : Expression} (h : Derives .atom ts e) :
    ∃ word us, ts = .name word :: us := by
  cases h with
  | kernel => exact ⟨_, _, rfl⟩
  | change => exact ⟨_, _, rfl⟩

theorem Derives.atom_ne_openBracket {ts : List Token} {e : Expression} (h : Derives .atom ts e)
    (rest us : List Token) : ts ++ rest ≠ .openBracket :: us := by
  obtain ⟨word, vs, rfl⟩ := h.head_atom
  simp

/-- How a phrase is read that the tokens `ts` are derived as. Sums may go on behind them. -/
def ReadsAs (e : Expression) (ts : List Token) : Phrase → Prop
  | .atom => ∀ rest, Reads (readAtom (ts ++ rest)) e rest
  | .item => ∀ rest, Reads (readItem (ts ++ rest)) e rest
  | .sum => ∀ rest total left, Reads (readTerms e rest) total left →
      Reads (readExpression (ts ++ rest)) total left

theorem ReadsAs.of_sum {e : Expression} {ts : List Token} (h : ReadsAs e ts .sum)
    {rest : List Token} (hrest : ∀ us, rest ≠ .plus :: us) :
    Reads (readExpression (ts ++ rest)) e rest :=
  h rest e rest ((reads_terms_iff hrest).2 ⟨rfl, rfl⟩)

theorem Derives.readsAs {phrase : Phrase} {ts : List Token} {e : Expression}
    (h : Derives phrase ts e) : ReadsAs e ts phrase := by
  induction h with
  | @kernel word k hk =>
    intro rest
    refine (reads_atom_iff ?_).2 ⟨k, rfl, reads_baseKernel_iff.2 ⟨word, rfl, hk⟩⟩
    intro word' us he
    cases he
    exact change?_of_ofName? hk
  | @change word change ts us a b hword ha hb iha ihb =>
    intro rest
    have hfirst : Reads (readExpression (ts ++ .comma :: (us ++ .closeBracket :: rest))) a _ :=
      iha.of_sum (by simp)
    have hsecond : Reads (readExpression (us ++ .closeBracket :: rest)) b _ := ihb.of_sum (by simp)
    have he : .name word :: .openBracket :: ts ++ .comma :: us ++ [.closeBracket] ++ rest =
        .name word :: .openBracket :: (ts ++ .comma :: (us ++ .closeBracket :: rest)) := by simp
    rw [he]
    exact (reads_atom_change_iff hword).2 ⟨a, b, _, hfirst, hsecond, rfl⟩
  | item h ih =>
    intro rest
    exact (reads_item_iff (h.atom_ne_openBracket rest)).2 (ih rest)
  | @mul ts us l r hl hr ihl ihr =>
    intro rest
    have hleft : Reads (readExpression (ts ++ .closeBracket :: .star :: (us ++ rest))) l _ :=
      ihl.of_sum (by simp)
    have hfactor : Reads (readFactor l (us ++ rest)) (.mul l r) rest :=
      (reads_factor_iff (hr.atom_ne_openBracket rest)).2 ⟨r, rfl, ihr rest⟩
    rw [List.append_assoc]
    exact reads_item_bracket_iff.2 ⟨l, _, hleft, hfactor⟩
  | @laxMul ts l word word' a b hl ha hb hconstant ih =>
    intro rest
    have hleft : Reads (readExpression (ts ++ .closeBracket :: .star :: .openBracket ::
        .name word :: .plus :: .name word' :: .closeBracket :: rest)) l _ := ih.of_sum (by simp)
    have hlax : Reads (laxFactor (.name word :: .plus :: .name word' :: .closeBracket :: rest))
        (a, b) rest := reads_laxFactor_iff.2 ⟨word, word', rfl, ha, hb, hconstant⟩
    have hfactor : Reads (readFactor l (.openBracket :: .name word :: _)) (.laxMul l a b) rest :=
      reads_factor_bracket_iff.2 ⟨a, b, rfl, hlax⟩
    rw [List.append_assoc]
    exact reads_item_bracket_iff.2 ⟨l, _, hleft, hfactor⟩
  | sum h ih =>
    intro rest total left hterms
    exact reads_expression_iff.2 ⟨_, _, ih rest, hterms⟩
  | @add ts us l r hl hr ihl ihr =>
    intro rest total left hterms
    have hplus := reads_terms_plus_iff.2 ⟨r, rest, ihr rest, hterms⟩
    rw [List.append_assoc]
    exact ihl _ total left hplus

theorem Derives.ofTokens_eq {ts : List Token} {e : Expression} (h : Derives .sum ts e) :
    ofTokens ts = .ok e := by
  have hread : Reads (readExpression (ts ++ [])) e [] := h.readsAs.of_sum (by simp)
  rw [List.append_nil] at hread
  obtain ⟨hr, hread⟩ := hread
  rw [ofTokens, hread]
  rfl

theorem parse_eq_ok {s : String} {ts : List Token} {e : Expression} (hs : Token.Scans s.toList ts)
    (h : Derives .sum ts e) : parse s = .ok e := by
  rw [parse, hs.scan_eq]
  exact Outcome.mapError_eq_ok_iff.2 h.ofTokens_eq

end CovarianceSearch.Expression
