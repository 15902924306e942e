import CovarianceSearch.Proofs.Decimal.Nearest

namespace CovarianceSearch.Decimal

open Float.Model UnpackedFloat FloatRounding

def Magnitude.ofParts (m : ℕ) (e : ℤ) : Magnitude := ⟨m, e, m = 2 ^ 52 && -1074 < e⟩

section

variable {x : Float} {s : Sign} {m : ℕ} {e : ℤ} {hm : 0 < m}

theorem Magnitude.ofFloat_eq_ofParts (hx : x.toModel.unpack = .finite s m e hm) :
    Magnitude.ofFloat x = .ofParts m e := by
  have hone : 1 <<< 52 = 2 ^ 52 := rfl
  obtain ⟨-, hlt, hsmall | hlarge⟩ := fields_of_unpack hx
  · obtain ⟨hfield, hmantissa, he⟩ := hsmall
    change (x.toBits.toNat >>> 52) % 2048 = 0 at hfield
    change m = x.toBits.toNat % 2 ^ 52 at hmantissa
    unfold Magnitude.ofFloat
    dsimp only
    rw [if_pos hfield, hone, ← hmantissa, he]
    congr 1
    simp
  · obtain ⟨hfield, hmantissa, he⟩ := hlarge
    change 0 < (x.toBits.toNat >>> 52) % 2048 at hfield
    change m = 2 ^ 52 + x.toBits.toNat % 2 ^ 52 at hmantissa
    change e = ((x.toBits.toNat >>> 52 % 2048 : ℕ) : ℤ) - 1075 at he
    unfold Magnitude.ofFloat
    dsimp only
    rw [if_neg hfield.ne', hone, ← hmantissa, ← he]
    congr 1
    rw [Bool.eq_iff_iff]
    simp only [Bool.and_eq_true, decide_eq_true_eq]
    omega

end

theorem natCast_le_iff {a b : ℕ} {x y z : ℚ} (hz : 0 < z) (ha : (a : ℚ) = x * z)
    (hb : (b : ℚ) = y * z) : a ≤ b ↔ x ≤ y := by
  rw [← mul_le_mul_iff_left₀ hz, ← ha, ← hb, Nat.cast_le]

theorem natCast_lt_iff {a b : ℕ} {x y z : ℚ} (hz : 0 < z) (ha : (a : ℚ) = x * z)
    (hb : (b : ℚ) = y * z) : a < b ↔ x < y := by
  rw [← mul_lt_mul_iff_left₀ hz, ← ha, ← hb, Nat.cast_lt]

section

variable (a b : ℕ) (e p : ℤ)

/-- Both sides of a comparison with a bound are multiplied by this. -/
def multiplier : ℚ := 2 ^ (2 - e).toNat * 10 ^ (-p).toNat

theorem multiplier_pos : 0 < multiplier e p := by
  unfold multiplier
  positivity

theorem cast_bound : ((a * (Nat.pow 10 (-p).toNat <<< (e - 2).toNat) : ℕ) : ℚ) =
    a / 4 * 2 ^ e * multiplier e p := by
  have hpower := zpow_eq_div 2 (e - 2)
  rw [neg_sub, zpow_sub₀ two_ne_zero, eq_div_iff (by positivity)] at hpower
  rw [Nat.shiftLeft_eq, Nat.pow_eq]
  push_cast
  rw [← hpower, multiplier]
  ring

theorem cast_value : (((b * Nat.pow 10 p.toNat) <<< (2 - e).toNat : ℕ) : ℚ) =
    b * 10 ^ p * multiplier e p := by
  have hpower := zpow_eq_div 10 p
  rw [eq_div_iff (by positivity)] at hpower
  rw [Nat.shiftLeft_eq, Nat.pow_eq]
  push_cast
  rw [← hpower, multiplier]
  ring

end

section

variable {m : ℕ} {e : ℤ} {c : Scaled}

theorem cast_low (hm : 0 < m) :
    ((4 * m - (if (Magnitude.ofParts m e).narrow then 1 else 2) : ℕ) : ℚ) / 4 =
      m - if m = 2 ^ 52 ∧ -1074 < e then 1 / 4 else 1 / 2 := by
  have hnarrow : (Magnitude.ofParts m e).narrow = true ↔ m = 2 ^ 52 ∧ -1074 < e := by
    simp [Magnitude.ofParts]
  by_cases h : m = 2 ^ 52 ∧ -1074 < e
  · rw [if_pos (hnarrow.2 h), if_pos h, Nat.cast_sub (by omega)]
    push_cast
    ring
  · rw [if_neg (hnarrow.not.2 h), if_neg h, Nat.cast_sub (by omega)]
    push_cast
    ring

theorem readsBack_iff : readsBack (.ofParts m e) c ↔
    let low := (4 * m - (if (Magnitude.ofParts m e).narrow then 1 else 2) : ℕ)
    if m % 2 = 0 then
      (low : ℚ) / 4 * 2 ^ e ≤ c.digits * 10 ^ c.power ∧
        (c.digits : ℚ) * 10 ^ c.power ≤ ((4 * m + 2 : ℕ) : ℚ) / 4 * 2 ^ e
    else
      (low : ℚ) / 4 * 2 ^ e < c.digits * 10 ^ c.power ∧
        (c.digits : ℚ) * 10 ^ c.power < ((4 * m + 2 : ℕ) : ℚ) / 4 * 2 ^ e := by
  have hpos := multiplier_pos e c.power
  have hvalue := cast_value c.digits e c.power
  dsimp only
  change (if m % 2 = 0 then _ else _) = true ↔ _
  split
  · rw [Bool.and_eq_true, decide_eq_true_eq, decide_eq_true_eq]
    exact and_congr (natCast_le_iff hpos (cast_bound _ _ _) hvalue)
      (natCast_le_iff hpos hvalue (cast_bound _ _ _))
  · rw [Bool.and_eq_true, decide_eq_true_eq, decide_eq_true_eq]
    exact and_congr (natCast_lt_iff hpos (cast_bound _ _ _) hvalue)
      (natCast_lt_iff hpos hvalue (cast_bound _ _ _))

/-- What reads back lies among the numbers that are rounded to the float. -/
theorem roundsTo_of_readsBack (hm : 0 < m) (h : readsBack (.ofParts m e) c) :
    RoundsTo (c.digits * 10 ^ c.power) m e := by
  have hhigh : ((4 * m + 2 : ℕ) : ℚ) / 4 = m + 1 / 2 := by
    push_cast
    ring
  rw [readsBack_iff] at h
  dsimp only at h
  rw [cast_low hm, hhigh] at h
  split at h
  · next heven => exact ⟨h.1, h.2, fun hodd ↦ by omega⟩
  · next hodd =>
    refine ⟨h.1.le, h.2.le, fun _ ↦ ⟨?_, h.2⟩⟩
    rw [if_neg (by omega)] at h
    exact h.1

theorem value_ofMagnitude (m : ℕ) (e : ℤ) :
    (Scaled.ofMagnitude (.ofParts m e)).digits * 10 ^ (Scaled.ofMagnitude (.ofParts m e)).power =
      (m * 2 ^ e : ℚ) := by
  change ((if e < 0 then (⟨m * Nat.pow 5 (-e).toNat, e⟩ : Scaled)
    else ⟨m <<< e.toNat, 0⟩).digits : ℚ) *
      10 ^ (if e < 0 then (⟨m * Nat.pow 5 (-e).toNat, e⟩ : Scaled)
        else ⟨m <<< e.toNat, 0⟩).power = _
  split
  · next hneg =>
    obtain ⟨k, rfl⟩ : ∃ k : ℕ, e = -k := ⟨e.natAbs, by omega⟩
    rw [neg_neg, Int.toNat_natCast, Nat.pow_eq]
    push_cast
    rw [zpow_neg, zpow_neg, zpow_natCast, zpow_natCast, show (10 : ℚ) = 5 * 2 by norm_num, mul_pow]
    field_simp
  · next hneg =>
    obtain ⟨k, rfl⟩ := Int.eq_ofNat_of_zero_le (not_lt.1 hneg)
    simp [Nat.shiftLeft_eq]

theorem readsBack_of_nearestOnGrid {tie : Tie} {a : Magnitude} {power : ℤ}
    (h : nearestOnGrid tie a power = some c) : readsBack a c := by
  unfold nearestOnGrid at h
  dsimp only at h
  split at h
  · cases h
  · next hbelow habove => cases h; exact hbelow
  · next hbelow habove => cases h; exact habove
  · next hbelow habove =>
    cases h
    split
    · exact hbelow
    · exact habove

/-- The shortest digits of a float are rounded to it. -/
theorem roundsTo_shortest (hm : 0 < m) (tie : Tie) :
    RoundsTo ((shortest tie (.ofParts m e)).digits * 10 ^ (shortest tie (.ofParts m e)).power)
      m e := by
  obtain ⟨top, htop⟩ : ∃ top, top = leadingPower (Magnitude.ofParts m e).numerator
      (Magnitude.ofParts m e).denominator := ⟨_, rfl⟩
  rw [shortest, ← htop]
  cases hfind : (List.range 17).findSome? fun i : ℕ ↦
      nearestOnGrid tie (.ofParts m e) (top - i) with
  | none =>
    rw [Option.getD_none, value_ofMagnitude]
    exact roundsTo_self m e
  | some c =>
    obtain ⟨i, -, hgrid⟩ := List.exists_of_findSome?_eq_some hfind
    exact roundsTo_of_readsBack hm (readsBack_of_nearestOnGrid hgrid)

end

end CovarianceSearch.Decimal
