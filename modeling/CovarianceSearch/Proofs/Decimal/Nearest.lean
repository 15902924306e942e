import CovarianceSearch.Decimal.Numeral
import CovarianceSearch.Decimal.Shortest
import CovarianceSearch.Proofs.FloatStorage

namespace CovarianceSearch.Decimal

open Float.Model UnpackedFloat FloatRounding

theorem zpow_eq_div (a : ℚ) (z : ℤ) : a ^ z = a ^ z.toNat / a ^ (-z).toNat := by
  obtain ⟨n, rfl | rfl⟩ := Int.eq_nat_or_neg z <;> simp [div_eq_mul_inv]

def isPowerOfTen (k : ℕ) : UnpackedFloat → Bool
  | .finite .positive m e _ => m * 2 ^ e.toNat == 10 ^ k * 2 ^ (-e).toNat
  | _ => false

theorem exists_of_isPowerOfTen {k : ℕ} {a : UnpackedFloat} (h : isPowerOfTen k a) :
    ∃ m e hm, a = .finite .positive m e hm ∧ (m : ℚ) * 2 ^ e = 10 ^ k := by
  unfold isPowerOfTen at h
  split at h
  · next m e hm =>
    refine ⟨m, e, hm, rfl, ?_⟩
    have hvalue : (m * 2 ^ e.toNat : ℚ) = 10 ^ k * 2 ^ (-e).toNat := by
      exact_mod_cast beq_iff_eq.1 h
    rw [zpow_eq_div, ← mul_div_assoc, hvalue]
    field_simp
  · cases h

def powerOfTen (k : ℕ) (hk : k ≤ 22) : Float :=
  have hlt : k < Float.exactlyRepresentablePowersOfTen.size := Nat.lt_succ_of_le hk
  Float.exactlyRepresentablePowersOfTen[k]

theorem isPowerOfTen_powerOfTen : ∀ k : Fin 23, isPowerOfTen k
    (powerOfTen k k.is_le).toModel.unpack := by
  decide +kernel

theorem exists_unpack_powerOfTen {k : ℕ} (hk : k ≤ 22) : ∃ m e hm,
    (powerOfTen k hk).toModel.unpack = .finite .positive m e hm ∧ (m : ℚ) * 2 ^ e = 10 ^ k :=
  exists_of_isPowerOfTen (isPowerOfTen_powerOfTen ⟨k, Nat.lt_succ_of_le hk⟩)

theorem exists_unpack_toFloat {n : ℕ} (hpos : 0 < n) (hn : n < 2 ^ 53) : ∃ m e hm,
    n.toUInt64.toFloat.toModel.unpack = .finite .positive m e hm ∧ (m : ℚ) * 2 ^ e = n ∧
      2 ^ 52 ≤ m := by
  obtain ⟨k, hk⟩ : ∃ k, n.log2 + k = 52 := ⟨52 - n.log2, by have := log2_le hn; omega⟩
  have hlt : n * 2 ^ k < 2 ^ 53 := by
    calc n * 2 ^ k
      _ < 2 ^ (n.log2 + 1) * 2 ^ k := Nat.mul_lt_mul_of_pos_right Nat.lt_log2_self (by positivity)
      _ = 2 ^ (n.log2 + k + 1) := by ring
      _ = 2 ^ 53 := by rw [hk]
  have hnormal : 2 ^ 52 ≤ n * 2 ^ k := by
    calc 2 ^ 52
      _ = 2 ^ n.log2 * 2 ^ k := by rw [← pow_add, hk]
      _ ≤ n * 2 ^ k := Nat.mul_le_mul_right _ (Nat.log2_self_le hpos.ne')
  have hstored : IsStored (n * 2 ^ k) (-k) :=
    ⟨⟨by positivity, hlt, by omega, .inl hnormal⟩, by omega⟩
  refine ⟨n * 2 ^ k, -k, hstored.pos, ?_, ?_, hnormal⟩
  · change (Float.Model.pack (UnpackedFloat.normalize .binary64 (n.toUInt64.toNat : ℤ) 0
      .positive)).unpack = _
    have hword : n.toUInt64.toNat = n := Nat.mod_eq_of_lt (hn.trans (by norm_num))
    rw [hword, normalize_natCast hk hstored.toIsCanonical]
    exact hstored.unpack_pack .positive
  · push_cast
    rw [zpow_neg, zpow_natCast]
    field_simp

section

variable {x : Float} {m M k : ℕ} {p q : ℤ} {hM : 0 < M}

theorem toFloat_mul_eq (hx : x.toModel.unpack = .finite .positive M q hM) (hpos : 0 < m)
    (hm : m < 2 ^ 53) (hk : k ≤ 22) (hround : RoundsTo (m * 10 ^ k) M q) :
    m.toUInt64.toFloat * powerOfTen k hk = x := by
  obtain ⟨m₁, e₁, h₁, hunpack₁, hvalue₁, hfine⟩ := exists_unpack_toFloat hpos hm
  obtain ⟨m₂, e₂, h₂, hunpack₂, hvalue₂⟩ := exists_unpack_powerOfTen hk
  rw [← hvalue₁, ← hvalue₂] at hround
  have hmul : 2 ^ 52 ≤ m₁ * m₂ := hfine.trans (Nat.le_mul_of_pos_right _ h₂)
  change Float.ofModel (Float.Model.pack (UnpackedFloat.mul .binary64 _ _)) = x
  rw [hunpack₁, hunpack₂, mul_eq (isStored_of_unpack hx).toIsCanonical (.inl hmul) hround]
  exact ofModel_pack hx

theorem toFloat_div_eq (hx : x.toModel.unpack = .finite .positive M q hM) (hpos : 0 < m)
    (hm : m < 2 ^ 53) (hk : k ≤ 22) (hround : RoundsTo (m / 10 ^ k) M q) :
    m.toUInt64.toFloat / powerOfTen k hk = x := by
  obtain ⟨m₁, e₁, h₁, hunpack₁, hvalue₁, -⟩ := exists_unpack_toFloat hpos hm
  obtain ⟨m₂, e₂, h₂, hunpack₂, hvalue₂⟩ := exists_unpack_powerOfTen hk
  rw [← hvalue₁, ← hvalue₂] at hround
  change Float.ofModel (Float.Model.pack (UnpackedFloat.div .binary64 _ _)) = x
  rw [hunpack₁, hunpack₂, div_eq (isStored_of_unpack hx).toIsCanonical hround]
  exact ofModel_pack hx

theorem model_ofScientific_eq (hx : x.toModel.unpack = .finite .positive M q hM) (hpos : 0 < m)
    (hround : RoundsTo (m * 10 ^ p) M q) (hlow : -(2048 + (m.log2 : ℤ)) ≤ p) (hhigh : p ≤ 2048) :
    Float.ofModel (Float.Model.ofScientific m p) = x := by
  have hm := (isStored_of_unpack hx).toIsCanonical
  have hsmall : ¬ p > 2 ^ Format.binary64.exponentBits := not_lt_of_ge hhigh
  have hlarge : ¬ p < -(2 ^ Format.binary64.exponentBits + (m.log2 : ℤ)) := not_lt_of_ge hlow
  have hfinite : UnpackedFloat.ofScientific .binary64 m p = .finite .positive M q hM := by
    rw [UnpackedFloat.ofScientific, dif_neg hpos.ne', if_neg hsmall, if_neg hlarge]
    split
    · next hsign =>
      obtain ⟨k, rfl⟩ := Int.eq_ofNat_of_zero_le hsign
      have hfine : 2 ^ 52 ≤ m <<< Format.binary64.mantissaBits * 10 ^ (k : ℤ).toNat := by
        change 2 ^ 52 ≤ m <<< 53 * 10 ^ k
        rw [Nat.shiftLeft_eq]
        have : 0 < 10 ^ k := by positivity
        nlinarith
      refine mul_eq hm (.inl hfine) ?_
      have hvalue : ((m <<< Format.binary64.mantissaBits : ℕ) : ℚ) *
          2 ^ (-Format.binary64.mantissaBits : ℤ) = m := by
        change ((m <<< 53 : ℕ) : ℚ) * 2 ^ (-53 : ℤ) = m
        rw [Nat.shiftLeft_eq, zpow_neg]
        push_cast
        exact mul_inv_cancel_right₀ (by norm_num) _
      rw [hvalue]
      simpa using hround
    · next hsign =>
      obtain ⟨k, rfl⟩ : ∃ k : ℕ, p = -k := ⟨p.natAbs, by omega⟩
      refine div_eq hm ?_
      simpa [div_eq_mul_inv] using hround
  change Float.ofModel (Float.Model.pack (UnpackedFloat.ofScientific .binary64 m p)) = x
  rw [hfinite]
  exact ofModel_pack hx

/-- A number that is rounded to `x` is read as `x`, by whatever way of working it out. -/
theorem ofScientific_eq (hx : x.toModel.unpack = .finite .positive M q hM)
    (hround : RoundsTo (m * 10 ^ p) M q) (hlow : -(2048 + (m.log2 : ℤ)) ≤ p) (hhigh : p ≤ 2048) :
    Float.ofScientific m (p < 0) p.natAbs = x := by
  have hpos : 0 < m := by
    have hvalue := (two_zpow_pos _).trans_le ((isStored_of_unpack hx).le_of_roundsTo hround)
    exact_mod_cast pos_of_mul_pos_left hvalue (by positivity)
  by_cases hfast : m < 2 ^ 53 ∧ p.natAbs ≤ 22
  · rw [Float.ofScientific, dif_pos hfast]
    by_cases hsign : p < 0
    · have hp : p = -(p.natAbs : ℤ) := by omega
      rw [hp, zpow_neg, zpow_natCast, ← div_eq_mul_inv] at hround
      rw [if_pos (decide_eq_true hsign)]
      exact toFloat_div_eq hx hpos hfast.1 hfast.2 hround
    · have hp : p = (p.natAbs : ℤ) := by omega
      rw [hp, zpow_natCast] at hround
      rw [if_neg (by simpa using hsign)]
      exact toFloat_mul_eq hx hpos hfast.1 hfast.2 hround
  · have hp : (if decide (p < 0) = true then Int.negOfNat p.natAbs
        else Int.ofNat p.natAbs) = p := by
      by_cases hsign : p < 0
      · rw [if_pos (decide_eq_true hsign), Int.negOfNat_eq, Int.ofNat_eq_natCast]
        omega
      · rw [if_neg (by simpa using hsign), Int.ofNat_eq_natCast]
        omega
    rw [Float.ofScientific, dif_neg hfast, hp]
    exact model_ofScientific_eq hx hpos hround hlow hhigh

end

end CovarianceSearch.Decimal
