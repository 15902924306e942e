import CovarianceSearch.Decimal.Text
import CovarianceSearch.Proofs.Decimal.Numeral
import CovarianceSearch.Proofs.Decimal.Shortest

namespace CovarianceSearch.Decimal

open Float.Model UnpackedFloat FloatRounding

def sizeOfParts (parts : List Char × List Char) (power : ℤ) : ℚ :=
  Nat.ofDigitChars 10 (parts.1 ++ parts.2) 0 * 10 ^ (power - parts.2.length : ℤ)

theorem sizeOfParts_append_zeros (whole fraction : List Char) (k : ℕ) (power : ℤ) :
    sizeOfParts (whole, fraction ++ zeros k) power = sizeOfParts (whole, fraction) power := by
  have hpower : power - ((fraction ++ zeros k).length : ℤ) = power - fraction.length - k := by
    rw [List.length_append, zeros, List.length_replicate]
    push_cast
    ring
  have hvalue : Nat.ofDigitChars 10 (whole ++ (fraction ++ zeros k)) 0 =
      10 ^ k * Nat.ofDigitChars 10 (whole ++ fraction) 0 := by
    rw [← List.append_assoc, Nat.ofDigitChars_append, zeros, Nat.ofDigitChars_replicate_zero]
  have hten : (10 : ℚ) ^ k ≠ 0 := by positivity
  simp only [sizeOfParts, hpower, hvalue]
  rw [zpow_sub₀ (by norm_num) _ (k : ℤ), zpow_natCast]
  push_cast
  field_simp

theorem exists_eq_stripZeros_append (ds : List Char) : ∃ k, ds = stripZeros ds ++ zeros k := by
  refine ⟨(ds.reverse.takeWhile (· = '0')).length, ?_⟩
  have hzeros : ds.reverse.takeWhile (· = '0') =
      zeros (ds.reverse.takeWhile (· = '0')).length :=
    List.eq_replicate_of_mem fun c hc ↦ by simpa using List.mem_takeWhile_imp hc
  have hsplit := congrArg List.reverse
    (List.takeWhile_append_dropWhile (p := (· = '0')) (l := ds.reverse))
  rw [List.reverse_append, List.reverse_reverse, hzeros, zeros, List.reverse_replicate] at hsplit
  exact hsplit.symm

/-- What stands before and after the point of a number of some size. There is no needless zero. -/
structure IsParts (parts : List Char × List Char) (value : ℚ) : Prop where
  isDigit : ∀ c ∈ parts.1 ++ parts.2, c.isDigit
  plain : parts.1.length = 1 ∨ ∃ c ∈ parts.1.head?, c ≠ '0'
  size : ∀ power, sizeOfParts parts power = value * 10 ^ power

theorem isDigit_of_mem_zeros {n : ℕ} {c : Char} (h : c ∈ zeros n) : c.isDigit := by
  rw [List.eq_of_mem_replicate h]
  rfl

section

variable {ds : List Char} {p : ℤ}

theorem isParts_of_nonneg (hds : ∀ c ∈ ds, c.isDigit) (hhead : ∃ c ∈ ds.head?, c ≠ '0') (n : ℕ) :
    IsParts (ds ++ zeros n, []) (Nat.ofDigitChars 10 ds 0 * 10 ^ n) where
  isDigit := by
    intro c hc
    simp only [List.append_nil, List.mem_append] at hc
    exact hc.elim (hds c) isDigit_of_mem_zeros
  plain := by
    obtain ⟨c, hc, hzero⟩ := hhead
    refine .inr ⟨c, ?_, hzero⟩
    rw [List.head?_append, Option.mem_def.1 hc]
    rfl
  size := by
    intro power
    rw [sizeOfParts, List.append_nil, Nat.ofDigitChars_append, zeros,
      Nat.ofDigitChars_replicate_zero]
    push_cast
    rw [List.length_nil, Nat.cast_zero, sub_zero]
    ring

theorem isParts_of_neg (hds : ∀ c ∈ ds, c.isDigit) (hhead : ∃ c ∈ ds.head?, c ≠ '0') (k : ℕ) :
    IsParts ((zeros (k + 1 - ds.length) ++ ds).splitAt
      ((zeros (k + 1 - ds.length) ++ ds).length - k))
      (Nat.ofDigitChars 10 ds 0 * 10 ^ (-k : ℤ)) := by
  obtain ⟨padded, hpadded⟩ : ∃ padded, padded = zeros (k + 1 - ds.length) ++ ds := ⟨_, rfl⟩
  rw [← hpadded, List.splitAt_eq]
  have hlength : padded.length = k + 1 - ds.length + ds.length := by
    rw [hpadded, List.length_append, zeros, List.length_replicate]
  refine ⟨?_, ?_, ?_⟩
  · intro c hc
    rw [List.take_append_drop, hpadded] at hc
    exact (List.mem_append.1 hc).elim isDigit_of_mem_zeros (hds c)
  · by_cases hshort : ds.length ≤ k
    · left
      rw [List.length_take]
      omega
    · right
      obtain ⟨c, hc, hzero⟩ := hhead
      refine ⟨c, ?_, hzero⟩
      have hnone : k + 1 - ds.length = 0 := by omega
      have hsame : padded = ds := by
        rw [hpadded, hnone]
        rfl
      rw [List.head?_take, if_neg (by omega), hsame]
      exact hc
  · intro power
    have hdrop : (padded.drop (padded.length - k)).length = k := by
      rw [List.length_drop]
      omega
    have hvalue : Nat.ofDigitChars 10 padded 0 = Nat.ofDigitChars 10 ds 0 := by
      rw [hpadded, Nat.ofDigitChars_append, zeros, Nat.ofDigitChars_replicate_zero, mul_zero]
    rw [sizeOfParts, List.take_append_drop, hdrop, hvalue, mul_assoc,
      ← zpow_add₀ (by norm_num), neg_add_eq_sub]

theorem isParts_splitAtPoint (hds : ∀ c ∈ ds, c.isDigit) (hhead : ∃ c ∈ ds.head?, c ≠ '0') (p : ℤ) :
    IsParts (splitAtPoint ds p) (Nat.ofDigitChars 10 ds 0 * 10 ^ p) := by
  unfold splitAtPoint
  split
  · next hsign =>
    obtain ⟨n, rfl⟩ := Int.eq_ofNat_of_zero_le hsign
    exact_mod_cast isParts_of_nonneg hds hhead n
  · next hsign =>
    obtain ⟨k, rfl⟩ : ∃ k : ℕ, p = -k := ⟨p.natAbs, by omega⟩
    rw [neg_neg, Int.toNat_natCast]
    exact isParts_of_neg hds hhead k

end

/-- The digits of a number do not begin with a zero, or fewer of them would do. -/
theorem exists_head?_toDigits {n : ℕ} (hn : 0 < n) :
    ∃ c ∈ (Nat.toDigits 10 n).head?, c ≠ '0' := by
  obtain ⟨c, cs, hcons⟩ := List.exists_cons_of_ne_nil (Nat.toDigits_ne_nil (n := n) (b := 10))
  refine ⟨c, by rw [hcons]; rfl, ?_⟩
  intro hzero
  have hvalue : Nat.ofDigitChars 10 cs 0 = n := by
    have := Nat.ofDigitChars_ten_toDigits (n := n)
    rwa [hcons, hzero, Nat.ofDigitChars_cons] at this
  have hdigits : ∀ d ∈ cs, d.isDigit := fun d hd ↦
    isDigit_of_mem_toDigits (n := n) (hcons ▸ List.mem_cons_of_mem _ hd)
  have hlt : n < 10 ^ cs.length := hvalue ▸ ofDigitChars_lt hdigits
  have hpos : 0 < cs.length := by
    refine Nat.pos_of_ne_zero fun hnone ↦ ?_
    rw [hnone] at hlt
    omega
  have hle := (Nat.length_toDigits_le_iff (by norm_num) hpos).2 hlt
  rw [hcons, List.length_cons] at hle
  omega

def Numeral.ofParts (sign : Option Char) (parts : List Char × List Char) (power : Option ℤ) :
    Numeral where
  sign := sign
  whole := parts.1
  fraction := match stripZeros parts.2 with
    | [] => if power.isNone then some ['0'] else none
    | ds => some ds
  power := power

section

variable {parts : List Char × List Char} {value : ℚ} {sign : Option Char} {power : Option ℤ}

theorem exists_fraction_ofParts (sign : Option Char) (parts : List Char × List Char)
    (power : Option ℤ) :
    ∃ j, (Numeral.ofParts sign parts power).fraction.getD [] = stripZeros parts.2 ++ zeros j := by
  unfold Numeral.ofParts
  dsimp only
  cases stripZeros parts.2 with
  | nil =>
    cases power with
    | none => exact ⟨1, rfl⟩
    | some p => exact ⟨0, rfl⟩
  | cons c cs => exact ⟨0, (List.append_nil _).symm⟩

theorem fraction_ofParts_ne (sign : Option Char) (parts : List Char × List Char)
    (power : Option ℤ) : (Numeral.ofParts sign parts power).fraction ≠ some [] := by
  unfold Numeral.ofParts
  dsimp only
  cases stripZeros parts.2 with
  | nil => cases power <;> simp
  | cons c cs => simp

theorem isWhole_ofParts (sign : Option Char) (parts : List Char × List Char) (power : Option ℤ) :
    (Numeral.ofParts sign parts power).isWhole = false := by
  unfold Numeral.ofParts Numeral.isWhole
  dsimp only
  cases stripZeros parts.2 with
  | nil => cases power <;> rfl
  | cons c cs => rfl

theorem toList_withFraction (sign : Option Char) (parts : List Char × List Char)
    (power : Option ℤ) :
    (withFraction (if power.isNone then ".0" else "") parts).toList =
      parts.1 ++ (Numeral.ofParts sign parts power).fraction.elim [] ('.' :: ·) := by
  unfold Numeral.ofParts withFraction
  dsimp only
  cases stripZeros parts.2 with
  | nil => cases power <;> simp
  | cons c cs => simp

namespace IsParts

theorem isWellFormed (h : IsParts parts value) (sign : Option Char) (power : Option ℤ) :
    (Numeral.ofParts sign parts power).IsWellFormed := by
  obtain ⟨j, hfraction⟩ := exists_fraction_ofParts sign parts power
  obtain ⟨k, hzeros⟩ := exists_eq_stripZeros_append parts.2
  intro c hc
  rw [hfraction] at hc
  have hparts := h.isDigit c
  rw [hzeros] at hparts
  simp only [List.mem_append] at hc hparts
  obtain hc | hc | hc := hc
  · exact hparts (.inl hc)
  · exact hparts (.inr (.inl hc))
  · exact isDigit_of_mem_zeros hc

theorem isStrict (h : IsParts parts value) (sign : Option Char) (power : Option ℤ) :
    (Numeral.ofParts sign parts power).isStrict :=
  Numeral.isStrict_of_plain h.plain (fraction_ofParts_ne sign parts power)

theorem size_ofParts (h : IsParts parts value) (sign : Option Char) (power : Option ℤ) :
    (Numeral.ofParts sign parts power).size = value * 10 ^ power.getD 0 := by
  obtain ⟨j, hfraction⟩ := exists_fraction_ofParts sign parts power
  obtain ⟨k, hzeros⟩ := exists_eq_stripZeros_append parts.2
  have hsize := h.size (power.getD 0)
  have hpair : parts = (parts.1, stripZeros parts.2 ++ zeros k) := Prod.ext rfl hzeros
  rw [hpair, sizeOfParts_append_zeros] at hsize
  rw [← hsize, ← sizeOfParts_append_zeros _ _ j, Numeral.size, hfraction]
  rfl

end IsParts

end

/-- A numeral that documents hold for a real number, never for a whole one. -/
structure Numeral.IsReal (n : Numeral) : Prop where
  wellFormed : n.IsWellFormed
  strict : n.isStrict
  notWhole : n.isWhole = false
  sign : ∀ c ∈ n.sign, c = '-'

theorem IsParts.isReal {parts : List Char × List Char} {value : ℚ} {sign : Option Char}
    (h : IsParts parts value) (hsign : ∀ c ∈ sign, c = '-') (power : Option ℤ) :
    (Numeral.ofParts sign parts power).IsReal where
  wellFormed := h.isWellFormed sign power
  strict := h.isStrict sign power
  notWhole := isWhole_ofParts sign parts power
  sign := hsign

section

variable {style : Style} {m : ℕ} {e : ℤ} {sign : Option Char}

theorem toList_exponentText (p : ℤ) : (exponentText p).toList = 'e' :: Numeral.signed p := by
  unfold exponentText Numeral.signed
  split <;> simp

theorem exists_numeral_magnitudeText (e : ℤ) (hstyle : style.whole = ".0") (hm : 0 < m)
    (hsign : ∀ c ∈ sign, c = '-') :
    ∃ n : Numeral, n.chars = sign.toList ++ (style.magnitudeText (.ofParts m e)).toList ∧
      n.IsReal ∧ n.sign = sign ∧ RoundsTo n.size m e := by
  obtain ⟨c, hc⟩ : ∃ c, c = shortest style.tie (.ofParts m e) := ⟨_, rfl⟩
  have hround := roundsTo_shortest (e := e) hm style.tie
  rw [← hc] at hround
  have hpos : 0 < c.digits := by
    exact_mod_cast pos_of_mul_pos_left (hround.pos hm) (by positivity)
  have hdigits : ∀ d ∈ digits c.digits, d.isDigit := fun _ ↦ isDigit_of_mem_toDigits
  have hparts := isParts_splitAtPoint hdigits (exists_head?_toDigits hpos)
  have hvalue : Nat.ofDigitChars 10 (digits c.digits) 0 = c.digits := Nat.ofDigitChars_ten_toDigits
  rw [hvalue] at hparts
  have hmantissa : (Magnitude.ofParts m e).mantissa ≠ 0 := hm.ne'
  obtain ⟨leading, hleading⟩ : ∃ l : ℤ, l = c.power + (digits c.digits).length - 1 := ⟨_, rfl⟩
  rw [Style.magnitudeText, if_neg hmantissa, ← hc]
  dsimp only
  rw [← hleading]
  split
  · next hpositional =>
    refine ⟨.ofParts sign (splitAtPoint (digits c.digits) c.power) none, ?_,
      (hparts c.power).isReal hsign none, rfl, ?_⟩
    · have hlist := toList_withFraction sign (splitAtPoint (digits c.digits) c.power) none
      change (withFraction ".0" _).toList = _ at hlist
      rw [hstyle, hlist]
      exact congrArg _ (congrArg _ (List.append_nil _))
    · rw [(hparts c.power).size_ofParts]
      simpa using hround
  · next hexponent =>
    refine ⟨.ofParts sign (splitAtPoint (digits c.digits) (1 - (digits c.digits).length))
      (some leading), ?_, (hparts _).isReal hsign _, rfl, ?_⟩
    · have hlist := toList_withFraction sign
        (splitAtPoint (digits c.digits) (1 - (digits c.digits).length)) (some leading)
      change (withFraction "" _).toList = _ at hlist
      rw [String.toList_append, hlist, toList_exponentText, List.append_assoc]
      rfl
    · rw [(hparts _).size_ofParts, Option.getD_some, mul_assoc, ← zpow_add₀ (by norm_num), hleading]
      convert hround using 3
      ring

end

section

variable {style : Style} {x : Float} {s : Sign}

theorem isNegative_iff (h : FloatSign.sign? x.toModel.unpack = some s) :
    isNegative x = true ↔ s = .negative := by
  rw [sign_of_unpack h, isNegative, decide_eq_true_eq]
  rfl

def signOf (x : Float) : Option Char := if isNegative x then some '-' else none

theorem toList_signText (x : Float) : (signText x).toList = (signOf x).toList := by
  unfold signText signOf
  split <;> rfl

theorem eq_minus_of_mem_signOf {c : Char} (h : c ∈ signOf x) : c = '-' := by
  unfold signOf at h
  split at h
  · exact (Option.some.inj h).symm
  · cases h

theorem isNegative_of_sign_eq {n : Numeral} (h : n.sign = signOf x) :
    n.isNegative = isNegative x := by
  rw [Numeral.isNegative, h, signOf]
  split <;> simp_all

theorem eq_of_unpack_eq {y : Float} {a : UnpackedFloat}
    (hsign : FloatSign.sign? x.toModel.unpack = some s) (hy : y.toModel.unpack = a)
    (hx : x.toModel.unpack = match s with | .negative => a.neg | .positive => a) :
    (if isNegative x then -y else y) = x := by
  have hnegative := isNegative_iff hsign
  cases s with
  | negative =>
    rw [if_pos (hnegative.2 rfl)]
    exact neg_eq hy hx
  | positive =>
    rw [if_neg (hnegative.not.2 (by simp)), ← ofModel_pack hx]
    exact (ofModel_pack hy).symm

theorem unpack_zero : (0.0 : Float).toModel.unpack = .zero .positive := unpack_packedZero

theorem exists_numeral_zero (hstyle : style.whole = ".0") (hx : x.toModel.unpack = .zero s) :
    ∃ n : Numeral, (style.text x).toList = n.chars ∧ n.IsReal ∧ n.toFloat = x := by
  have hfinite : x.isFinite := by
    change x.toModel.unpack.isFinite = true
    rw [hx]
    rfl
  have hmantissa : (Magnitude.ofFloat x).mantissa = 0 := by
    obtain ⟨hfield, hfraction⟩ := fields_of_unpack_zero hx
    change (x.toBits.toNat >>> 52) % 2048 = 0 at hfield
    rw [Magnitude.ofFloat, if_pos hfield]
    exact hfraction
  refine ⟨⟨signOf x, ['0'], some ['0'], none⟩, ?_, ⟨by simp [Numeral.IsWellFormed], rfl, rfl,
    fun _ ↦ eq_minus_of_mem_signOf⟩, ?_⟩
  · rw [Style.text, if_pos hfinite, String.toList_append, toList_signText, Style.magnitudeText,
      if_pos hmantissa, hstyle]
    rfl
  · change (if Numeral.isNegative _ then -(0.0 : Float) else 0.0) = x
    rw [isNegative_of_sign_eq (x := x) rfl]
    exact eq_of_unpack_eq (congrArg FloatSign.sign? hx) unpack_zero (hx.trans (by cases s <;> rfl))

/-- The text of a float is that of a numeral which is read as the float. -/
theorem exists_numeral_text (style : Style) (hstyle : style.whole = ".0") (hx : x.isFinite) :
    ∃ n : Numeral, (style.text x).toList = n.chars ∧ n.IsReal ∧ n.toFloat = x := by
  rcases FloatSign.exists_unpack_of_isFinite hx with ⟨s, hs⟩ | ⟨s, m, e, hm, hs⟩
  · exact exists_numeral_zero hstyle hs
  · have hminus : ∀ c ∈ signOf x, c = '-' := fun _ ↦ eq_minus_of_mem_signOf
    obtain ⟨n, hchars, hreal, hsign, hround⟩ := exists_numeral_magnitudeText e hstyle hm hminus
    refine ⟨n, ?_, hreal, ?_⟩
    · rw [Style.text, if_pos hx, String.toList_append, toList_signText,
        Magnitude.ofFloat_eq_ofParts hs, hchars]
    · have hpositive := (isStored_of_unpack hs).unpack_pack .positive
      rw [Numeral.toFloat_eq (x := .ofModel (.pack _)) hreal.wellFormed hpositive hround,
        isNegative_of_sign_eq hsign]
      exact eq_of_unpack_eq (congrArg FloatSign.sign? hs) hpositive (hs.trans (by cases s <;> rfl))

end

end CovarianceSearch.Decimal
