import CovarianceSearch.Document.Json.Read
import CovarianceSearch.Document.Json.Write
import CovarianceSearch.Proofs.Decimal.Text

namespace CovarianceSearch.Json

section

variable {c e : Char} {rest : List Char}

theorem escaped_cases (c : Char) :
    (∃ e, escaped c = ['\\', e] ∧ e ≠ 'u' ∧ ofEscape? e = some c) ∨
      (c.toNat < 0x20 ∧ escaped c = '\\' :: 'u' :: hexQuad c.toNat) ∨
        (c ≠ '"' ∧ c ≠ '\\' ∧ 0x20 ≤ c.toNat ∧ escaped c = [c]) := by
  have hcode {n : ℕ} (h : c.toNat = n) : some (Char.ofNat n) = some c := by
    rw [← h, Char.ofNat_toNat]
  unfold escaped
  split
  · next h => exact .inl ⟨'"', rfl, by decide, h.symm ▸ rfl⟩
  split
  · next h => exact .inl ⟨'\\', rfl, by decide, h.symm ▸ rfl⟩
  split
  · next h => exact .inl ⟨'n', rfl, by decide, h.symm ▸ rfl⟩
  split
  · next h => exact .inl ⟨'r', rfl, by decide, h.symm ▸ rfl⟩
  split
  · next h => exact .inl ⟨'t', rfl, by decide, h.symm ▸ rfl⟩
  split
  · next h => exact .inl ⟨'b', rfl, by decide, hcode h⟩
  split
  · next h => exact .inl ⟨'f', rfl, by decide, hcode h⟩
  split
  · next h => exact .inr (.inl ⟨h, rfl⟩)
  · next hquote hslash _ _ _ _ _ hlarge =>
    exact .inr (.inr ⟨hquote, hslash, not_lt.1 hlarge, rfl⟩)

theorem readText_ofEscape (hne : e ≠ 'u') (he : ofEscape? e = some c) :
    readText ('\\' :: e :: rest) = (readText rest).map fun (cs, r) ↦ (c :: cs, r) := by
  rw [readText.eq_def]
  split
  · next h => simp at h
  · next h => exact absurd (List.cons.inj (List.cons.inj h).2).1 hne
  · next h => exact absurd (List.cons.inj (List.cons.inj h).2).1 hne
  · next h =>
    cases h
    rw [he]
    cases readText rest <;> rfl
  · next hescape h =>
    cases h
    exact absurd rfl (hescape _ _ rfl)
  · next h => cases h

theorem readHex_hexQuad : ∀ n : Fin 128, (hexQuad n).length = 4 ∧
    readHex 0 (hexQuad n) = some (n : ℕ) ∧
      readHex 0 ((hexQuad n).map Char.toUpper) = some (n : ℕ) := by
  decide

theorem exists_hexQuad {n : ℕ} (hn : n < 128) :
    ∃ a b c d, hexQuad n = [a, b, c, d] ∧ readHex 0 [a, b, c, d] = some n ∧
      readHex 0 [a.toUpper, b.toUpper, c.toUpper, d.toUpper] = some n := by
  obtain ⟨hlength, hread⟩ := readHex_hexQuad ⟨n, hn⟩
  dsimp only at hlength hread
  match hexQuad n, hlength, hread with
  | [a, b, c, d], _, hread => exact ⟨a, b, c, d, rfl, hread⟩

theorem charOfCode?_toNat (c : Char) : charOfCode? c.toNat = some c := by
  have hvalid : c.toNat.isValidChar := c.valid
  rw [charOfCode?, if_pos hvalid, Char.ofNat_toNat]

/-- What follows the four digits does not matter, be it another character in four digits. -/
theorem readText_hexQuad (hc : c.toNat < 0x20) :
    readText ('\\' :: 'u' :: (hexQuad c.toNat ++ rest)) =
      (readText rest).map fun (cs, r) ↦ (c :: cs, r) := by
  obtain ⟨a, b, d, e, hquad, hread, -⟩ := exists_hexQuad (hc.trans (by decide))
  have hcode := charOfCode?_toNat c
  rw [hquad]
  change readText ('\\' :: 'u' :: a :: b :: d :: e :: rest) = _
  rw [readText.eq_def]
  split
  · next h => simp at h
  · next h =>
    cases h
    rw [hread, Option.bind_eq_bind, Option.bind_some, hcode]
    cases readText _ <;> rfl
  · next h =>
    cases h
    rw [hread, Option.bind_eq_bind, Option.bind_some, hcode]
    cases readText _ <;> rfl
  · next hfour h =>
    cases h
    exact absurd rfl (hfour _ _ _ _ _ rfl)
  · next hescape h =>
    cases h
    exact absurd rfl (hescape _ _ rfl)
  · next h => cases h

theorem readText_plain (hquote : c ≠ '"') (hslash : c ≠ '\\') (hlarge : 0x20 ≤ c.toNat) :
    readText (c :: rest) = (readText rest).map fun (cs, r) ↦ (c :: cs, r) := by
  rw [readText.eq_def]
  split <;> simp_all

theorem readText_escaped (c : Char) (rest : List Char) :
    readText (escaped c ++ rest) = (readText rest).map fun (cs, r) ↦ (c :: cs, r) := by
  obtain ⟨e, hescaped, hne, he⟩ | ⟨hsmall, hescaped⟩ | ⟨hquote, hslash, hlarge, hescaped⟩ :=
    escaped_cases c
  · rw [hescaped]
    exact readText_ofEscape hne he
  · rw [hescaped]
    exact readText_hexQuad hsmall
  · rw [hescaped]
    exact readText_plain hquote hslash hlarge

theorem readText_flatMap_escaped (cs rest : List Char) :
    readText (cs.flatMap escaped ++ '"' :: rest) = some (cs, rest) := by
  induction cs with
  | nil => simp [readText]
  | cons c cs ih => rw [List.flatMap_cons, List.append_assoc, readText_escaped, ih, Option.map_some]

end

section

open Decimal

variable {n : Numeral} {rest : List Char}

theorem isNumeric_of_isDigit {c : Char} (h : c.isDigit) : isNumeric c := by
  simp [isNumeric, h]

theorem isNumeric_of_mem_signed {p : ℤ} {c : Char} (h : c ∈ Numeral.signed p) : isNumeric c := by
  obtain rfl | h := List.mem_cons.1 h
  · split <;> rfl
  · exact isNumeric_of_isDigit (isDigit_of_mem_toDigits h)

theorem isNumeric_of_mem_chars (h : n.IsWellFormed) (hsign : ∀ c ∈ n.sign, c = '-') {c : Char}
    (hc : c ∈ n.chars) : isNumeric c := by
  have hwhole : ∀ c ∈ n.whole, isNumeric c := fun c hc ↦
    isNumeric_of_isDigit (h c (List.mem_append_left _ hc))
  have hfraction : ∀ f ∈ n.fraction, ∀ c ∈ f, isNumeric c := by
    intro f hf c hc
    refine isNumeric_of_isDigit (h c (List.mem_append_right _ ?_))
    rw [Option.mem_def.1 hf]
    exact hc
  simp only [Numeral.chars, List.mem_append] at hc
  obtain hc | hc | hc | hc := hc
  · rw [hsign c (Option.mem_toList.1 hc)]
    rfl
  · exact hwhole c hc
  · cases hf : n.fraction with
    | none => simp [hf] at hc
    | some f =>
      rw [hf, Option.elim_some] at hc
      obtain rfl | hc := List.mem_cons.1 hc
      · rfl
      · exact hfraction f hf c hc
  · cases hp : n.power with
    | none => simp [hp] at hc
    | some p =>
      rw [hp, Option.elim_some] at hc
      obtain rfl | hc := List.mem_cons.1 hc
      · rfl
      · exact isNumeric_of_mem_signed hc

theorem readAtom_of_isNumeric {c : Char} {cs : List Char} (hc : isNumeric c) :
    readAtom (c :: cs) = do
      let numeral ← Numeral.read? ((c :: cs).takeWhile isNumeric)
      return (← ofNumeral? numeral, (c :: cs).dropWhile isNumeric) := by
  unfold readAtom
  split
  · next h => cases h; exact absurd hc (by decide)
  · next h => cases h; exact absurd hc (by decide)
  · next h => cases h; exact absurd hc (by decide)
  · next h => cases h; exact absurd hc (by decide)
  · rfl

theorem exists_head_chars (h : n.IsWellFormed) (hsign : ∀ c ∈ n.sign, c = '-')
    (hwhole : n.whole ≠ []) : ∃ c ∈ n.chars.head?, isNumeric c := by
  obtain ⟨c, cs, hchars⟩ : ∃ c cs, n.chars = c :: cs := by
    refine List.exists_cons_of_ne_nil fun hnil ↦ hwhole ?_
    rw [Numeral.chars, List.append_eq_nil_iff, List.append_eq_nil_iff] at hnil
    exact hnil.2.1
  refine ⟨c, by rw [hchars]; rfl, isNumeric_of_mem_chars h hsign ?_⟩
  rw [hchars]
  exact List.mem_cons_self

theorem readAtom_chars {d : Datum} (h : n.IsWellFormed) (hsign : ∀ c ∈ n.sign, c = '-')
    (hwhole : n.whole ≠ []) (hd : ofNumeral? n = some d)
    (hrest : ∀ c ∈ rest.head?, isNumeric c = false) :
    readAtom (n.chars ++ rest) = some (d, rest) := by
  have hnumeric : ∀ c ∈ n.chars, isNumeric c := fun c ↦ isNumeric_of_mem_chars h hsign
  have hread := Numeral.read?_chars h (fun c hc ↦ .inl (hsign c hc)) hwhole
  obtain ⟨c, hc, -⟩ := exists_head_chars h hsign hwhole
  obtain ⟨cs, hchars⟩ := List.head?_eq_some_iff.1 hc
  rw [hchars] at hnumeric hread ⊢
  rw [List.cons_append, readAtom_of_isNumeric (hnumeric c List.mem_cons_self), ← List.cons_append,
    takeWhile_append_eq hnumeric hrest, dropWhile_append_eq hnumeric hrest, hread,
    Option.bind_eq_bind, Option.bind_some, hd]
  rfl

theorem ofNumeral?_real (h : n.IsReal) (hx : n.toFloat.isFinite) :
    ofNumeral? n = some (.real n.toFloat) := by
  have hplus : n.sign ≠ some '+' := fun hplus ↦ absurd (h.sign '+' hplus) (by decide)
  simp [ofNumeral?, h.strict, hplus, h.notWhole, hx]

theorem whole_ne_nil (h : n.isStrict) : n.whole ≠ [] := by
  intro hnil
  simp [Numeral.isStrict, hnil] at h

theorem exists_head_text {x : Float} (hx : x.isFinite) :
    ∃ c ∈ (Style.data.text x).toList.head?, isNumeric c := by
  obtain ⟨n, hchars, hreal, -⟩ := exists_numeral_text .data rfl hx
  rw [hchars]
  exact exists_head_chars hreal.wellFormed hreal.sign (whole_ne_nil hreal.strict)

theorem readAtom_text {x : Float} (hx : x.isFinite)
    (hrest : ∀ c ∈ rest.head?, isNumeric c = false) :
    readAtom ((Style.data.text x).toList ++ rest) = some (.real x, rest) := by
  obtain ⟨n, hchars, hreal, hread⟩ := exists_numeral_text .data rfl hx
  have hnumeral := ofNumeral?_real hreal (hread.symm ▸ hx)
  rw [hread] at hnumeral
  rw [hchars]
  exact readAtom_chars hreal.wellFormed hreal.sign (whole_ne_nil hreal.strict) hnumeral hrest

def wholeNumeral (n : ℤ) : Numeral :=
  ⟨if n < 0 then some '-' else none, Nat.toDigits 10 n.natAbs, none, none⟩

theorem chars_wholeNumeral (n : ℤ) : (wholeNumeral n).chars = (toString n).toList := by
  rw [Int.toString_eq_repr, Int.repr_eq_if, wholeNumeral, Numeral.chars]
  by_cases hn : n < 0
  · have habs : (-n).toNat = n.natAbs := by omega
    rw [if_pos hn, if_neg (not_le.2 hn), habs]
    simp
  · have habs : n.toNat = n.natAbs := by omega
    rw [if_neg hn, if_pos (not_lt.1 hn), habs]
    simp

theorem isWellFormed_wholeNumeral (n : ℤ) : (wholeNumeral n).IsWellFormed := by
  intro c hc
  change c ∈ Nat.toDigits 10 n.natAbs ++ [] at hc
  rw [List.append_nil] at hc
  exact isDigit_of_mem_toDigits hc

theorem isStrict_wholeNumeral (n : ℤ) : (wholeNumeral n).isStrict := by
  refine Numeral.isStrict_of_plain ?_ nofun
  by_cases hn : n = 0
  · subst hn
    exact .inl rfl
  · exact .inr (exists_head?_toDigits (Int.natAbs_pos.2 hn))

theorem isNegative_wholeNumeral (n : ℤ) : (wholeNumeral n).isNegative = decide (n < 0) := by
  by_cases hn : n < 0 <;> simp [wholeNumeral, Numeral.isNegative, hn]

theorem toInt_wholeNumeral (n : ℤ) : (wholeNumeral n).toInt = n := by
  have hvalue : (readDigits 0 (wholeNumeral n).whole).getD 0 = n.natAbs := by
    change (readDigits 0 (Nat.toDigits 10 n.natAbs)).getD 0 = _
    rw [readDigits_eq fun _ ↦ isDigit_of_mem_toDigits, Option.getD_some,
      Nat.ofDigitChars_ten_toDigits]
  rw [Numeral.toInt, isNegative_wholeNumeral, hvalue]
  by_cases hn : n < 0
  · rw [if_pos (decide_eq_true hn)]
    omega
  · rw [if_neg (by simpa using hn)]
    omega

theorem sign_wholeNumeral {n : ℤ} : ∀ c ∈ (wholeNumeral n).sign, c = '-' := by
  intro c hc
  by_cases hn : n < 0
  · simpa [wholeNumeral, hn] using hc.symm
  · simp [wholeNumeral, hn] at hc

theorem exists_head_toString (n : ℤ) : ∃ c ∈ (toString n).toList.head?, isNumeric c := by
  rw [← chars_wholeNumeral]
  exact exists_head_chars (isWellFormed_wholeNumeral n) sign_wholeNumeral Nat.toDigits_ne_nil

theorem readAtom_toString {n : ℤ} (hlow : Int64.minValue.toInt ≤ n) (hhigh : n < UInt64.size)
    (hrest : ∀ c ∈ rest.head?, isNumeric c = false) :
    readAtom ((toString n).toList ++ rest) = some (.integer n, rest) := by
  have hnumeral : ofNumeral? (wholeNumeral n) = some (.integer n) := by
    have hplus : (wholeNumeral n).sign ≠ some '+' := fun h ↦
      absurd (sign_wholeNumeral '+' h) (by decide)
    have hzero : (decide (n < 0) && decide (n = 0)) = false := by
      simp only [Bool.and_eq_false_iff, decide_eq_false_iff_not]
      omega
    have hwhole : (wholeNumeral n).isWhole = true := rfl
    simp only [ofNumeral?, isStrict_wholeNumeral, hplus, toInt_wholeNumeral,
      isNegative_wholeNumeral, hwhole, hzero, hlow, hhigh, decide_true, decide_false, Bool.not_true,
      Bool.not_false, Bool.or_self, Bool.and_self, Bool.false_eq_true, if_true, if_false]
  rw [← chars_wholeNumeral]
  exact readAtom_chars (isWellFormed_wholeNumeral n) sign_wholeNumeral Nat.toDigits_ne_nil hnumeral
    hrest

end

end CovarianceSearch.Json
