import CovarianceSearch.Expression
import CovarianceSearch.Proofs.BaseKernel

namespace CovarianceSearch

namespace Token

/-- How a text is made of tokens: names are as long as possible, and blanks may stand between
tokens. -/
inductive Scans : List Char → List Token → Prop
  | nil : Scans [] []
  | blank {c : Char} {cs : List Char} {ts : List Token} :
      Text.isBlank c = true → Scans cs ts → Scans (c :: cs) ts
  | sign {c : Char} {t : Token} {cs : List Char} {ts : List Token} :
      ofSign? c = some t → Scans cs ts → Scans (c :: cs) (t :: ts)
  | name {w cs : List Char} {ts : List Token} :
      w ≠ [] → (∀ c ∈ w, isWord c = true) → (∀ c ∈ cs.head?, isWord c = false) → Scans cs ts →
      Scans (w ++ cs) (.name (String.ofList w) :: ts)

theorem isWord_iff {c : Char} : isWord c = true ↔
    ((65 ≤ c.toNat ∧ c.toNat ≤ 90 ∨ 97 ≤ c.toNat ∧ c.toNat ≤ 122) ∨
      48 ≤ c.toNat ∧ c.toNat ≤ 57) ∨ c = '_' := by
  simp only [isWord, Char.isAlphanum, Char.isAlpha, Char.isUpper, Char.isLower, Char.isDigit,
    Bool.or_eq_true, Bool.and_eq_true, decide_eq_true_iff, ge_iff_le, UInt32.le_iff_toNat_le]
  rfl

theorem isBlank_of_isWord {c : Char} (h : isWord c = true) : Text.isBlank c = false := by
  rcases isWord_iff.1 h with h | rfl
  · simp only [Text.isBlank, Bool.or_eq_false_iff, Bool.and_eq_false_iff, decide_eq_false_iff_not]
    omega
  · decide

theorem ofSign?_eq_some_iff {c : Char} {t : Token} : ofSign? c = some t ↔
    c = '(' ∧ t = .openBracket ∨ c = ')' ∧ t = .closeBracket ∨ c = '+' ∧ t = .plus ∨
      c = '*' ∧ t = .star ∨ c = ',' ∧ t = .comma := by
  unfold ofSign?
  split <;> simp_all [eq_comm]

theorem ofSign?_of_isWord {c : Char} (h : isWord c = true) : ofSign? c = none := by
  refine Option.eq_none_iff_forall_ne_some.2 fun t ht ↦ ?_
  rcases ofSign?_eq_some_iff.1 ht with ⟨rfl, -⟩ | ⟨rfl, -⟩ | ⟨rfl, -⟩ | ⟨rfl, -⟩ | ⟨rfl, -⟩ <;>
    exact absurd h (by decide)

theorem isBlank_of_ofSign? {c : Char} {t : Token} (h : ofSign? c = some t) :
    Text.isBlank c = false := by
  rcases ofSign?_eq_some_iff.1 h with
    ⟨rfl, -⟩ | ⟨rfl, -⟩ | ⟨rfl, -⟩ | ⟨rfl, -⟩ | ⟨rfl, -⟩ <;> decide

theorem consWord_false (c : Char) (ts : List Token) :
    consWord c false ts = .name (String.singleton c) :: ts := by
  unfold consWord
  split <;> rfl

theorem consWord_true (c : Char) (w : List Char) (ts : List Token) :
    consWord c true (.name (String.ofList w) :: ts) = .name (String.ofList (c :: w)) :: ts := by
  have hword : String.singleton c ++ String.ofList w = String.ofList (c :: w) :=
    String.toList_injective (by simp)
  simp only [consWord, if_true, hword]

theorem scan_word {w cs : List Char} {ts : List Token} (hne : w ≠ [])
    (hw : ∀ c ∈ w, isWord c = true) (hnext : ∀ c ∈ cs.head?, isWord c = false)
    (hcs : ∀ position, scan position cs = .ok ts) (position : Nat) :
    scan position (w ++ cs) = .ok (.name (String.ofList w) :: ts) := by
  induction w generalizing position with
  | nil => exact absurd rfl hne
  | cons c w ih =>
    have hc := hw c (by simp)
    rw [List.cons_append, scan, isBlank_of_isWord hc, if_neg Bool.false_ne_true,
      ofSign?_of_isWord hc]
    simp only [hc, if_true]
    cases w with
    | nil =>
      have hjoins : cs.head?.any isWord = false := by
        cases cs with
        | nil => rfl
        | cons d cs => exact hnext d rfl
      rw [List.nil_append, hcs, hjoins]
      exact congrArg Except.ok (consWord_false c ts)
    | cons d w =>
      have hjoins : (d :: w ++ cs).head?.any isWord = true := hw d (by simp)
      rw [ih (by simp) (fun b hb ↦ hw b (by simp [hb])), hjoins]
      exact congrArg Except.ok (consWord_true c (d :: w) ts)

theorem Scans.scan_eq {cs : List Char} {ts : List Token} (h : Scans cs ts) (position : Nat) :
    scan position cs = .ok ts := by
  induction h generalizing position with
  | nil => rfl
  | blank hc hcs ih => rw [scan, if_pos hc, ih]
  | sign hc hcs ih =>
    rw [scan, isBlank_of_ofSign? hc, if_neg Bool.false_ne_true, hc]
    simp only [ih]
    rfl
  | name hne hw hnext hcs ih => exact scan_word hne hw hnext ih position

theorem Scans.space {cs : List Char} {ts : List Token} (h : Scans cs ts) :
    Scans (' ' :: cs) ts :=
  .blank (by decide) h

theorem Scans.baseKernel (k : BaseKernel) {cs : List Char} {ts : List Token}
    (hnext : ∀ c ∈ cs.head?, isWord c = false) (h : Scans cs ts) :
    Scans (k.name.toList ++ cs) (.name k.name :: ts) := by
  have hname := Scans.name k.name_toList_ne_nil (fun c hc ↦ BaseKernel.isWord_of_mem_name hc)
    hnext h
  rwa [String.ofList_toList] at hname

theorem Scans.change {w as bs cs : List Char} {ts us vs : List Token} (hne : w ≠ [])
    (hw : ∀ c ∈ w, isWord c = true)
    (ha : ∀ {cs ts}, (∀ c ∈ cs.head?, isWord c = false) → Scans cs ts → Scans (as ++ cs) (us ++ ts))
    (hb : ∀ {cs ts}, (∀ c ∈ cs.head?, isWord c = false) → Scans cs ts → Scans (bs ++ cs) (vs ++ ts))
    (h : Scans cs ts) :
    Scans (w ++ '(' :: (as ++ ',' :: ' ' :: (bs ++ ')' :: cs)))
      (.name (String.ofList w) :: .openBracket ::
        (us ++ .comma :: (vs ++ .closeBracket :: ts))) := by
  have hclose : Scans (')' :: cs) (.closeBracket :: ts) := .sign rfl h
  have hcomma := (hb (by simp [isWord]) hclose).space
  have hfirst := ha (by simp [isWord]) (.sign (c := ',') (t := .comma) rfl hcomma)
  exact .name hne hw (by simp [isWord]) (.sign rfl hfirst)

end Token

namespace Expression

open Token

def tokens : Expression → List Token
  | .kernel k => [.name k.name]
  | .add l r => l.tokens ++ .plus :: r.tokens
  | .mul l r => .openBracket :: l.tokens ++ .closeBracket :: .star :: r.tokens
  | .laxMul l a b => .openBracket :: l.tokens ++
      [.closeBracket, .star, .openBracket, .name a.name, .plus, .name b.name, .closeBracket]
  | .changePoint a b => .name "cp" :: .openBracket :: a.tokens ++
      .comma :: b.tokens ++ [.closeBracket]
  | .changeWindow a b => .name "cw" :: .openBracket :: a.tokens ++
      .comma :: b.tokens ++ [.closeBracket]

theorem scans_text_append (e : Expression) {cs : List Char} {ts : List Token}
    (hnext : ∀ c ∈ cs.head?, isWord c = false) (h : Scans cs ts) :
    Scans (e.text.toList ++ cs) (e.tokens ++ ts) := by
  induction e generalizing cs ts with
  | kernel k => exact .baseKernel k hnext h
  | add l r ihl ihr =>
    have hr := ihr hnext h
    have hsign : Scans (' ' :: '+' :: ' ' :: (r.text.toList ++ cs)) (.plus :: (r.tokens ++ ts)) :=
      .space (.sign rfl hr.space)
    simpa [text, tokens] using ihl (by simp [isWord]) hsign
  | mul l r ihl ihr =>
    have hr := ihr hnext h
    have hsign : Scans (')' :: ' ' :: '*' :: ' ' :: (r.text.toList ++ cs))
        (.closeBracket :: .star :: (r.tokens ++ ts)) :=
      .sign rfl (.space (.sign rfl hr.space))
    have hl : Scans _ (l.tokens ++ _) := ihl (by simp [isWord]) hsign
    simpa [text, tokens] using Scans.sign (c := '(') (t := .openBracket) rfl hl
  | laxMul l a b ihl =>
    have hclose : Scans (')' :: cs) (.closeBracket :: ts) := .sign rfl h
    have hb := (Scans.baseKernel b (by simp [isWord]) hclose).space
    have ha := Scans.baseKernel a (by simp [isWord])
      (Scans.space (.sign (c := '+') (t := .plus) rfl hb))
    have hsign : Scans (')' :: ' ' :: '*' :: ' ' :: '(' :: _)
        (.closeBracket :: .star :: .openBracket :: _) :=
      .sign rfl (.space (.sign rfl (.space (.sign rfl ha))))
    have hl := ihl (by simp [isWord]) hsign
    simpa [text, tokens] using Scans.sign (c := '(') (t := .openBracket) rfl hl
  | changePoint a b iha ihb =>
    simpa [text, tokens] using
      Scans.change (w := ['c', 'p']) (by simp) (List.all_eq_true.1 rfl) iha ihb h
  | changeWindow a b iha ihb =>
    simpa [text, tokens] using
      Scans.change (w := ['c', 'w']) (by simp) (List.all_eq_true.1 rfl) iha ihb h

theorem scans_text (e : Expression) : Scans e.text.toList e.tokens := by
  simpa using e.scans_text_append (by simp) .nil

end Expression

end CovarianceSearch
