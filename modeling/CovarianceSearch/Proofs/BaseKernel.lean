import CovarianceSearch.BaseKernel
import CovarianceSearch.Expression.Token
import Mathlib

namespace CovarianceSearch

namespace Decimal

variable {cs : List Char} {n : ℕ}

theorem readDigits_eq (h : ∀ c ∈ cs, c.isDigit) (acc : Nat) :
    readDigits acc cs = some (Nat.ofDigitChars 10 cs acc) := by
  induction cs generalizing acc with
  | nil => simp [readDigits]
  | cons c cs ih =>
    rw [readDigits, if_pos (h c (by simp)), ih (fun d hd ↦ h d (by simp [hd])),
      Nat.ofDigitChars_cons]

theorem isDigit_of_readDigits {acc : ℕ} (h : readDigits acc cs = some n) :
    ∀ c ∈ cs, c.isDigit := by
  induction cs generalizing acc with
  | nil => exact nofun
  | cons c cs ih =>
    rw [readDigits] at h
    split at h
    · next hc => exact List.forall_mem_cons.2 ⟨hc, ih h⟩
    · cases h

theorem readNat?_eq_some_iff : readNat? cs = some n ↔
    cs ≠ [] ∧ (∀ c ∈ cs, c.isDigit) ∧ Nat.ofDigitChars 10 cs 0 = n := by
  unfold readNat?
  split
  · next hnil => simp [List.isEmpty_iff.1 hnil]
  · next hne =>
    rw [List.isEmpty_iff] at hne
    constructor
    · intro h
      have hdigits := isDigit_of_readDigits h
      rw [readDigits_eq hdigits, Option.some_inj] at h
      exact ⟨hne, hdigits, h⟩
    · rintro ⟨-, hdigits, rfl⟩
      exact readDigits_eq hdigits 0

theorem isDigit_of_mem_toDigits {c : Char} (h : c ∈ Nat.toDigits 10 n) : c.isDigit :=
  Nat.isDigit_of_mem_toDigits (by decide) (by decide) h

theorem readNat?_toDigits (n : Nat) : readNat? (Nat.toDigits 10 n) = some n :=
  readNat?_eq_some_iff.2
    ⟨by simp, fun _ ↦ isDigit_of_mem_toDigits, Nat.ofDigitChars_ten_toDigits⟩

theorem readUnsigned?_eq_some_iff : readUnsigned? cs = some n ↔
    readNat? cs = some n ∨ ∃ ds, cs = '+' :: ds ∧ readNat? ds = some n := by
  unfold readUnsigned?
  split
  · next ds =>
    have hplus : readNat? ('+' :: ds) ≠ some n := by
      intro h
      have hdigit := (readNat?_eq_some_iff.1 h).2.1 '+' List.mem_cons_self
      exact absurd hdigit (by decide)
    simp [hplus]
  · next hno =>
    constructor
    · exact .inl
    · rintro (h | ⟨ds, rfl, -⟩)
      · exact h
      · exact absurd rfl (hno ds)

end Decimal

namespace BaseKernel

/-- Whether a name stands for the kernel. A polynomial of degree zero has a name that is none. -/
def IsNamed : BaseKernel → Prop
  | .polynomial degree => degree ≠ 0
  | _ => True

/-- Digits of the degree of a polynomial. Zeros may stand before them. -/
structure IsDegree (ds : List Char) (degree : UInt32) : Prop where
  ne_nil : ds ≠ []
  isDigit : ∀ c ∈ ds, c.isDigit
  value : Nat.ofDigitChars 10 ds 0 = degree.toNat
  ne_zero : degree ≠ 0

/-- How texts name kernels: by the tokens on record, and polynomials by their degrees, too, with or
without a plus sign. -/
inductive Spells : String → BaseKernel → Prop
  | token {k : BaseKernel} : k ∈ registered → Spells k.spec.token k
  | degree {ds : List Char} {degree : UInt32} : IsDegree ds degree →
      Spells ("polynomial" ++ String.ofList ds) (.polynomial degree)
  | signed {ds : List Char} {degree : UInt32} : IsDegree ds degree →
      Spells ("polynomial+" ++ String.ofList ds) (.polynomial degree)

variable {s : String} {k : BaseKernel} {cs : List Char} {degree : UInt32}

theorem isDegree_iff :
    IsDegree cs degree ↔ Decimal.readNat? cs = some degree.toNat ∧ degree ≠ 0 := by
  rw [Decimal.readNat?_eq_some_iff]
  exact ⟨fun h ↦ ⟨⟨h.ne_nil, h.isDigit, h.value⟩, h.ne_zero⟩,
    fun ⟨⟨hnil, hdigits, hvalue⟩, hne⟩ ↦ ⟨hnil, hdigits, hvalue, hne⟩⟩

theorem readDegree_eq_some_iff_readUnsigned? : readDegree cs = some degree ↔
    Decimal.readUnsigned? cs = some degree.toNat ∧ degree ≠ 0 := by
  rw [readDegree, Option.bind_eq_some_iff]
  constructor
  · rintro ⟨n, hn, h⟩
    split at h
    · next hrange =>
      cases h
      have hvalue : (UInt32.ofNat n).toNat = n := by
        rw [UInt32.toNat_ofNat', Nat.mod_eq_of_lt hrange.2]
      rw [hvalue]
      refine ⟨hn, fun hzero ↦ ?_⟩
      rw [hzero] at hvalue
      exact hrange.1.ne hvalue
    · cases h
  · rintro ⟨hn, hne⟩
    have hpos : 0 < degree.toNat := Nat.pos_of_ne_zero fun h ↦ hne (UInt32.toNat_inj.1 h)
    exact ⟨_, hn, by rw [if_pos ⟨hpos, degree.toNat_lt_size⟩, UInt32.ofNat_toNat]⟩

theorem readDegree_eq_some_iff : readDegree cs = some degree ↔
    IsDegree cs degree ∨ ∃ ds, cs = '+' :: ds ∧ IsDegree ds degree := by
  rw [readDegree_eq_some_iff_readUnsigned?, Decimal.readUnsigned?_eq_some_iff, or_and_right]
  simp only [isDegree_iff, ← exists_and_right, and_assoc]

/-- A token on record does not go on behind the name of polynomials. -/
theorem eq_nil_of_token_eq (h : k.spec.token.toList = "polynomial".toList ++ cs) : cs = [] := by
  cases k <;> simp_all [spec]

theorem ofName?_polynomial (hcs : cs ≠ []) :
    ofName? ("polynomial" ++ String.ofList cs) = (readDegree cs).map .polynomial := by
  have hnone : registered.find? (·.spec.token == "polynomial" ++ String.ofList cs) = none := by
    rw [List.find?_eq_none]
    intro k _ htoken
    rw [beq_iff_eq] at htoken
    have hchars : k.spec.token.toList = "polynomial".toList ++ cs := by simp [htoken]
    exact hcs (eq_nil_of_token_eq hchars)
  have hdigits : "polynomial".toList.isPrefixOf? ("polynomial" ++ String.ofList cs).toList =
      some cs := by
    simp [List.isPrefixOf?_eq_some_iff_append_eq]
  rw [ofName?, hnone, hdigits]
  rfl

theorem Spells.ofName?_eq (h : Spells s k) : ofName? s = some k := by
  cases h with
  | token hk =>
    have hall : ∀ k ∈ registered, ofName? k.spec.token = some k := by decide
    exact hall k hk
  | degree hdegree =>
    rw [ofName?_polynomial hdegree.ne_nil, readDegree_eq_some_iff.2 (.inl hdegree)]
    rfl
  | @signed ds degree hdegree =>
    have hplus : "polynomial+" ++ String.ofList ds = "polynomial" ++ String.ofList ('+' :: ds) :=
      String.toList_injective (by simp)
    rw [hplus, ofName?_polynomial (List.cons_ne_nil _ _),
      readDegree_eq_some_iff.2 (.inr ⟨ds, rfl, hdegree⟩)]
    rfl

theorem spells_of_ofName? (h : ofName? s = some k) : Spells s k := by
  unfold ofName? at h
  split at h
  · next k' hfind =>
    have htoken := List.find?_some hfind
    rw [beq_iff_eq] at htoken
    cases h
    exact htoken ▸ .token (List.mem_of_find?_eq_some hfind)
  · obtain ⟨cs, hcs, h⟩ := Option.bind_eq_some_iff.1 h
    obtain ⟨degree, hread, rfl⟩ := Option.map_eq_some_iff.1 h
    rw [List.isPrefixOf?_eq_some_iff_append_eq] at hcs
    obtain hdegree | ⟨ds, rfl, hdegree⟩ := readDegree_eq_some_iff.1 hread
    · have hs : s = "polynomial" ++ String.ofList cs := String.toList_injective (by simp [← hcs])
      exact hs ▸ .degree hdegree
    · have hs : s = "polynomial+" ++ String.ofList ds := String.toList_injective (by simp [← hcs])
      exact hs ▸ .signed hdegree

theorem ofName?_eq_some_iff : ofName? s = some k ↔ Spells s k :=
  ⟨spells_of_ofName?, Spells.ofName?_eq⟩

theorem polynomialName_toList (n : Nat) :
    ("polynomial" ++ toString n).toList = "polynomial".toList ++ Nat.toDigits 10 n := by
  simp

theorem spells_polynomialName (h : degree ≠ 0) :
    Spells ("polynomial" ++ toString degree.toNat) (.polynomial degree) := by
  have hdigits : toString degree.toNat = String.ofList (Nat.toDigits 10 degree.toNat) :=
    String.toList_injective (by simp)
  rw [hdigits]
  exact .degree ⟨by simp, fun _ ↦ Decimal.isDigit_of_mem_toDigits, Nat.ofDigitChars_ten_toDigits, h⟩

theorem spells_name_of_mem (hk : k ∈ registered) : Spells k.name k := by
  have hname : ∀ k ∈ registered, k.name = k.spec.token := by decide
  rw [hname k hk]
  exact .token hk

theorem spells_name (h : k.IsNamed) : Spells k.name k := by
  cases k with
  | polynomial degree =>
    by_cases hone : degree = 1
    · subst hone
      exact spells_name_of_mem (by decide)
    · rw [name, if_neg hone]
      exact spells_polynomialName h
  | _ => exact spells_name_of_mem (by decide)

theorem ofName?_name (h : k.IsNamed) : ofName? k.name = some k := (spells_name h).ofName?_eq

theorem Spells.isNamed (h : Spells s k) : k.IsNamed := by
  cases h with
  | token hk =>
    have hall : ∀ k ∈ registered, k.IsNamed := by simp [registered, IsNamed]
    exact hall k hk
  | degree hdegree => exact hdegree.ne_zero
  | signed hdegree => exact hdegree.ne_zero

theorem isNamed_of_ofName? (h : ofName? s = some k) : k.IsNamed :=
  (spells_of_ofName? h).isNamed

theorem isNamed_or_eq (k : BaseKernel) : k.IsNamed ∨ k = .polynomial 0 := by
  cases k with
  | polynomial degree =>
    by_cases h : degree = 0
    · exact .inr (h ▸ rfl)
    · exact .inl h
  | _ => exact .inl trivial

theorem name_injective : Function.Injective name := by
  have hzero {k : BaseKernel} (hk : k.IsNamed) : k.name ≠ (polynomial 0).name := by
    intro h
    have hread := ofName?_name hk
    rw [h, show ofName? (polynomial 0).name = none by decide] at hread
    cases hread
  intro k l h
  rcases isNamed_or_eq k with hk | rfl <;> rcases isNamed_or_eq l with hl | rfl
  · exact Option.some_inj.1 ((ofName?_name hk).symm.trans ((congrArg ofName? h).trans
      (ofName?_name hl)))
  · exact absurd h (hzero hk)
  · exact absurd h.symm (hzero hl)
  · rfl

theorem isWord_of_mem_token (k : BaseKernel) : ∀ c ∈ k.spec.token.toList, Token.isWord c := by
  have hall : k.spec.token.toList.all Token.isWord = true := by
    cases k <;> simp only [spec] <;> decide
  exact List.all_eq_true.1 hall

theorem isWord_of_mem_toDigits {n : Nat} {c : Char} (h : c ∈ Nat.toDigits 10 n) :
    Token.isWord c := by
  simp [Token.isWord, Char.isAlphanum, Decimal.isDigit_of_mem_toDigits h]

theorem isWord_of_mem_name {k : BaseKernel} {c : Char} (h : c ∈ k.name.toList) :
    Token.isWord c := by
  cases k with
  | polynomial degree =>
    rw [name] at h
    split at h
    · exact isWord_of_mem_token (.polynomial degree) c h
    · rw [polynomialName_toList, List.mem_append] at h
      rcases h with h | h
      · exact isWord_of_mem_token (.polynomial degree) c h
      · exact isWord_of_mem_toDigits h
  | _ => exact isWord_of_mem_token _ c h

theorem name_toList_ne_nil (k : BaseKernel) : k.name.toList ≠ [] := by
  cases k with
  | polynomial degree =>
    rw [name]
    split
    · decide
    · simp
  | _ => decide

end BaseKernel

end CovarianceSearch
