import CovarianceSearch.Proofs.BaseKernel
import CovarianceSearch.Proofs.Decimal.Nearest

namespace CovarianceSearch.Decimal

open Float.Model UnpackedFloat FloatRounding

section

variable {cs : List Char}

section

variable {p : Char → Bool} {rest : List Char}

theorem takeWhile_append_eq (hcs : ∀ c ∈ cs, p c) (hrest : ∀ c ∈ rest.head?, p c = false) :
    (cs ++ rest).takeWhile p = cs := by
  rw [List.takeWhile_append_of_pos hcs]
  cases rest with
  | nil => simp
  | cons c rest => simp [hrest c rfl]

theorem dropWhile_append_eq (hcs : ∀ c ∈ cs, p c) (hrest : ∀ c ∈ rest.head?, p c = false) :
    (cs ++ rest).dropWhile p = rest := by
  rw [List.dropWhile_append_of_pos hcs]
  cases rest with
  | nil => rfl
  | cons c rest => simp [hrest c rfl]

end

theorem ofDigitChars_dropWhile_zero (cs : List Char) :
    Nat.ofDigitChars 10 (cs.dropWhile (· = '0')) 0 = Nat.ofDigitChars 10 cs 0 := by
  induction cs with
  | nil => rfl
  | cons c cs ih =>
    by_cases hc : c = '0'
    · rw [List.dropWhile_cons_of_pos (by simpa using hc), ih, Nat.ofDigitChars_cons, hc]
      rfl
    · rw [List.dropWhile_cons_of_neg (by simpa using hc)]

theorem ofDigitChars_lt (h : ∀ c ∈ cs, c.isDigit) : Nat.ofDigitChars 10 cs 0 < 10 ^ cs.length := by
  induction cs with
  | nil => simp
  | cons c cs ih =>
    have hdigit : c.toNat - '0'.toNat < 10 := by
      have hc := (Char.isDigit_iff_toNat.1 (h c List.mem_cons_self)).2
      simp only [Char.reduceToNat] at hc ⊢
      omega
    have htail := ih fun d hd ↦ h d (List.mem_cons_of_mem _ hd)
    rw [Nat.ofDigitChars_cons, Nat.ofDigitChars_eq_ofDigitChars_zero, List.length_cons, pow_succ]
    nlinarith [pow_pos (show 0 < 10 by norm_num) cs.length]

theorem le_ofDigitChars {c : Char} (hc : c.isDigit) (hzero : c ≠ '0') :
    10 ^ cs.length ≤ Nat.ofDigitChars 10 (c :: cs) 0 := by
  have hdigit : 1 ≤ c.toNat - '0'.toNat := by
    have hle := (Char.isDigit_iff_toNat.1 hc).1
    have hne : c.toNat ≠ '0'.toNat := fun heq ↦ hzero (Char.toNat_inj.1 heq)
    omega
  rw [Nat.ofDigitChars_cons, Nat.ofDigitChars_eq_ofDigitChars_zero]
  nlinarith [pow_pos (show 0 < 10 by norm_num) cs.length]

end

theorem power_bounds {d l : ℕ} {p : ℤ} (hle : 10 ^ l ≤ d) (hlt : d < 10 ^ (l + 1))
    (hlow : 2 ^ (-1075 : ℤ) ≤ (d * 10 ^ p : ℚ)) (hhigh : (d * 10 ^ p : ℚ) < 2 ^ (1024 : ℤ)) :
    -400 ≤ p + (l + 1 : ℕ) ∧ p + (l + 1 : ℕ) ≤ 400 ∧ (l : ℤ) ≤ d.log2 := by
  have hten : (1 : ℚ) < 10 := by norm_num
  have hpow : (0 : ℚ) < 10 ^ p := zpow_pos (by norm_num) p
  have hleast : (10 : ℚ) ^ (-325 : ℤ) < 10 ^ (p + (l + 1 : ℕ)) := by
    calc (10 : ℚ) ^ (-325 : ℤ)
      _ = ((10 ^ 13) ^ 25)⁻¹ := by rw [← pow_mul]; rfl
      _ ≤ ((2 ^ 43) ^ 25)⁻¹ := by gcongr; norm_num
      _ = 2 ^ (-1075 : ℤ) := by rw [← pow_mul]; rfl
      _ ≤ d * 10 ^ p := hlow
      _ < 10 ^ (l + 1) * 10 ^ p := mul_lt_mul_of_pos_right (by exact_mod_cast hlt) hpow
      _ = 10 ^ (p + (l + 1 : ℕ)) := by
        rw [zpow_add₀ (by norm_num), zpow_natCast, mul_comm]
  have hmost : (10 : ℚ) ^ (p + l) < 10 ^ (320 : ℤ) := by
    calc (10 : ℚ) ^ (p + l)
      _ = 10 ^ l * 10 ^ p := by rw [zpow_add₀ (by norm_num), zpow_natCast, mul_comm]
      _ ≤ d * 10 ^ p := mul_le_mul_of_nonneg_right (by exact_mod_cast hle) hpow.le
      _ < 2 ^ (1024 : ℤ) := hhigh
      _ = (2 ^ 64) ^ 16 := by rw [← pow_mul]; rfl
      _ ≤ (10 ^ 20) ^ 16 := by gcongr; norm_num
      _ = 10 ^ (320 : ℤ) := by rw [← pow_mul]; rfl
  have hleast' := (zpow_lt_zpow_iff_right₀ hten).1 hleast
  have hmost' := (zpow_lt_zpow_iff_right₀ hten).1 hmost
  have hlog : l ≤ d.log2 := by
    have hpos : d ≠ 0 := by
      have : 0 < 10 ^ l := by positivity
      omega
    refine (Nat.le_log2 hpos).2 (le_trans ?_ hle)
    exact Nat.pow_le_pow_left (by norm_num) l
  omega

namespace Numeral

def IsWellFormed (n : Numeral) : Prop := ∀ c ∈ n.whole ++ n.fraction.getD [], c.isDigit

def size (n : Numeral) : ℚ :=
  Nat.ofDigitChars 10 (n.whole ++ n.fraction.getD []) 0 *
    10 ^ (n.power.getD 0 - (n.fraction.getD []).length : ℤ)

variable {n : Numeral} {x : Float} {m : ℕ} {e : ℤ} {hm : 0 < m}

/-- A numeral is read as the float that its number is rounded to. -/
theorem toFloat_eq (h : n.IsWellFormed) (hx : x.toModel.unpack = .finite .positive m e hm)
    (hround : RoundsTo n.size m e) : n.toFloat = if n.isNegative then -x else x := by
  have hstored := isStored_of_unpack hx
  obtain ⟨ds, hds⟩ : ∃ ds, ds = (n.whole ++ n.fraction.getD []).dropWhile (· = '0') := ⟨_, rfl⟩
  obtain ⟨d, hd⟩ : ∃ d, d = Nat.ofDigitChars 10 ds 0 := ⟨_, rfl⟩
  obtain ⟨p, hp⟩ : ∃ p : ℤ, p = n.power.getD 0 - (n.fraction.getD []).length := ⟨_, rfl⟩
  have hdigits : ∀ c ∈ ds, c.isDigit := fun c hc ↦ h c (List.dropWhile_subset _ (hds ▸ hc))
  have hsize : n.size = d * 10 ^ p := by
    rw [size, hd, hds, ofDigitChars_dropWhile_zero, hp]
  rw [hsize] at hround
  have hlow := hstored.le_of_roundsTo hround
  have hpos : 0 < d := by
    exact_mod_cast pos_of_mul_pos_left ((two_zpow_pos _).trans_le hlow) (by positivity)
  obtain ⟨c, cs, hcons⟩ : ∃ c cs, ds = c :: cs := by
    refine List.exists_cons_of_ne_nil fun hnil ↦ ?_
    rw [hnil] at hd
    exact hpos.ne' hd
  have hzero : c ≠ '0' := by
    have hhead := List.head?_dropWhile_not (· = '0') (n.whole ++ n.fraction.getD [])
    rw [← hds, hcons] at hhead
    simpa using hhead
  have hle : 10 ^ cs.length ≤ d := by
    rw [hd, hcons]
    exact le_ofDigitChars (hdigits c (hcons ▸ List.mem_cons_self)) hzero
  have hlt : d < 10 ^ (cs.length + 1) := by
    have := ofDigitChars_lt hdigits
    rwa [← hd, hcons] at this
  obtain ⟨hleast, hmost, hlog⟩ := power_bounds hle hlt hlow (hstored.lt_of_roundsTo hround)
  have hread := ofScientific_eq hx hround (by omega) (by omega)
  have hsmall : ¬ (d = 0 || decide (p + (cs.length + 1 : ℕ) < -400)) = true := by
    simp only [Bool.or_eq_true, decide_eq_true_eq]
    omega
  rw [toFloat, ← hds, readDigits_eq hdigits, Option.getD_some, ← hd, ← hp, hcons,
    List.length_cons, if_neg hsmall, if_neg (not_lt_of_ge hmost), hread]

theorem isStrict_of_plain (hplain : n.whole.length = 1 ∨ ∃ c ∈ n.whole.head?, c ≠ '0')
    (hfraction : n.fraction ≠ some []) : n.isStrict := by
  unfold isStrict
  match hwhole : n.whole with
  | [] => simp [hwhole] at hplain
  | [c] => simpa using hfraction
  | c :: d :: cs =>
    have hzero : c ≠ '0' := by simpa [hwhole] using hplain
    simpa [hzero] using hfraction

def signed (p : ℤ) : List Char := (if p < 0 then '-' else '+') :: Nat.toDigits 10 p.natAbs

def chars (n : Numeral) : List Char :=
  n.sign.toList ++ (n.whole ++
    (n.fraction.elim [] ('.' :: ·) ++ n.power.elim [] fun p ↦ 'e' :: signed p))

theorem readSigned?_signed (p : ℤ) : readSigned? (signed p) = some p := by
  by_cases hneg : p < 0
  · rw [signed, if_pos hneg]
    simp only [readSigned?, takeSign, readNat?_toDigits, Option.map_some, if_pos]
    congr 1
    omega
  · rw [signed, if_neg hneg]
    simp only [readSigned?, takeSign, readNat?_toDigits, Option.map_some]
    rw [if_neg (by decide)]
    congr 1
    omega

theorem takeDigits_append {ds rest : List Char} (hds : ∀ c ∈ ds, c.isDigit)
    (hrest : ∀ c ∈ rest.head?, c.isDigit = false) : takeDigits (ds ++ rest) = (ds, rest) := by
  rw [takeDigits, takeWhile_append_eq hds hrest, dropWhile_append_eq hds hrest]

theorem takeSign_of_isDigit {c : Char} {cs : List Char} (hc : c.isDigit) :
    takeSign (c :: cs) = (none, c :: cs) := by
  unfold takeSign
  split
  · next h => cases h; exact absurd hc (by decide)
  · next h => cases h; exact absurd hc (by decide)
  · rfl

theorem takeSign_chars {sign : Option Char} {cs : List Char}
    (hsign : ∀ c ∈ sign, c = '-' ∨ c = '+') (hcs : ∃ c ∈ cs.head?, c.isDigit) :
    takeSign (sign.toList ++ cs) = (sign, cs) := by
  cases sign with
  | none =>
    obtain ⟨c, hhead, hdigit⟩ := hcs
    obtain ⟨cs, rfl⟩ := List.head?_eq_some_iff.1 hhead
    exact takeSign_of_isDigit hdigit
  | some c => obtain rfl | rfl := hsign c rfl <;> rfl

theorem read?_chars (h : n.IsWellFormed) (hsign : ∀ c ∈ n.sign, c = '-' ∨ c = '+')
    (hwhole : n.whole ≠ []) : read? n.chars = some n := by
  obtain ⟨sign, whole, fraction, power⟩ := n
  have hwholeDigits : ∀ c ∈ whole, c.isDigit := fun c hc ↦ h c (List.mem_append_left _ hc)
  obtain ⟨c, cs, rfl⟩ := List.exists_cons_of_ne_nil hwhole
  have hhead : ∃ d ∈ ((c :: cs) ++ (fraction.elim [] ('.' :: ·) ++
      power.elim [] fun p ↦ 'e' :: signed p)).head?, d.isDigit :=
    ⟨c, rfl, hwholeDigits c List.mem_cons_self⟩
  have hpowerHead : ∀ d ∈ (power.elim [] fun p ↦ 'e' :: signed p).head?, d.isDigit = false := by
    cases power with
    | none => simp
    | some p => simp
  have hfractionHead : ∀ d ∈ (fraction.elim [] ('.' :: ·) ++
      power.elim [] fun p ↦ 'e' :: signed p).head?, d.isDigit = false := by
    cases fraction with
    | none => exact hpowerHead
    | some f => simp
  rw [read?, chars, takeSign_chars hsign hhead]
  dsimp only
  rw [takeDigits_append hwholeDigits hfractionHead]
  cases fraction with
  | none =>
    cases power with
    | none => rfl
    | some p => simp [readSigned?_signed]
  | some f =>
    have hfraction : ∀ c ∈ f, c.isDigit := fun c hc ↦ h c (List.mem_append_right _ hc)
    have htail := takeDigits_append hfraction hpowerHead
    simp only [Option.elim_some, List.cons_append, htail]
    cases power with
    | none => rfl
    | some p => simp [readSigned?_signed]

end Numeral

end CovarianceSearch.Decimal
