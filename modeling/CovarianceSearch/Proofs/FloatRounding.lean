import CovarianceSearch.Proofs.FloatSign

namespace CovarianceSearch.FloatRounding

open Float.Model UnpackedFloat

/-- What a mantissa and the two bits behind it say of the number that they are cut off from. -/
def Describes (em : ExtendedMantissa) (x : ℚ) : Prop :=
  match em.roundBit, em.stickyBit with
  | false, false => x = em.mantissa
  | false, true => em.mantissa < x ∧ x < em.mantissa + 1 / 2
  | true, false => x = em.mantissa + 1 / 2
  | true, true => em.mantissa + 1 / 2 < x ∧ x < em.mantissa + 1

section

variable {em : ExtendedMantissa} {x : ℚ} {m : ℕ}

theorem Describes.floor (h : Describes em x) : (em.mantissa : ℚ) ≤ x ∧ x < em.mantissa + 1 := by
  obtain ⟨n, r, s⟩ := em
  cases r <;> cases s <;> simp only [Describes] at h <;> constructor <;> linarith

theorem shiftRightOne_even (q : ℕ) (r s : Bool) :
    (ExtendedMantissa.mk (2 * q) r s).shiftRightOne = ⟨q, false, r || s⟩ := by
  simp [ExtendedMantissa.shiftRightOne]

theorem shiftRightOne_odd (q : ℕ) (r s : Bool) :
    (ExtendedMantissa.mk (2 * q + 1) r s).shiftRightOne = ⟨q, true, r || s⟩ := by
  have hq : (2 * q + 1) / 2 = q := by omega
  have hbit : ((2 * q + 1) % 2 != 0) = true := by simp [Nat.add_mod]
  rw [ExtendedMantissa.shiftRightOne, hq, hbit]

theorem Describes.shiftRightOne (h : Describes em x) : Describes em.shiftRightOne (x / 2) := by
  obtain ⟨n, r, s⟩ := em
  obtain ⟨q, hq | hq⟩ := Nat.even_or_odd' n <;> subst hq
  · rw [shiftRightOne_even]
    cases r <;> cases s <;> simp only [Describes, Bool.or_true, Bool.or_false] at h ⊢ <;>
      push_cast at h
    · linarith
    all_goals constructor <;> linarith
  · rw [shiftRightOne_odd]
    cases r <;> cases s <;> simp only [Describes, Bool.or_true, Bool.or_false] at h ⊢ <;>
      push_cast at h
    · linarith
    all_goals constructor <;> linarith

theorem Describes.shiftRight (h : Describes em x) (k : ℕ) : Describes (em >>> k) (x / 2 ^ k) := by
  change Describes (k.repeat ExtendedMantissa.shiftRightOne em) _
  induction k with
  | zero => simpa [Nat.repeat] using h
  | succ k ih =>
    rw [Nat.repeat, pow_succ, ← div_div]
    exact ih.shiftRightOne

/-- Rounding finds the only whole number within a half, and of two the even one. -/
theorem Describes.roundedMantissa_eq (h : Describes em x) (hlow : (m : ℚ) - 1 / 2 ≤ x)
    (hhigh : x ≤ m + 1 / 2) (hodd : m % 2 = 1 → (m : ℚ) - 1 / 2 < x ∧ x < m + 1 / 2) :
    em.roundedMantissa = m := by
  obtain ⟨n, r, s⟩ := em
  cases r with
  | false =>
    have hle : (m : ℚ) < n + 1 := by
      cases s <;> simp only [Describes] at h <;> linarith
    have hge : (n : ℚ) < m + 1 := by
      cases s <;> simp only [Describes] at h <;> linarith
    have hnm : n = m := by
      have hle' : m < n + 1 := by exact_mod_cast hle
      have hge' : n < m + 1 := by exact_mod_cast hge
      omega
    cases s <;> exact hnm
  | true =>
    cases s with
    | false =>
      simp only [Describes] at h
      have hle : m ≤ n + 1 := by
        have : (m : ℚ) ≤ n + 1 := by linarith
        exact_mod_cast this
      have hge : n ≤ m := by
        have : (n : ℚ) ≤ m := by linarith
        exact_mod_cast this
      have heven : m % 2 = 0 := by
        by_contra hne
        obtain ⟨hlow', hhigh'⟩ := hodd (by omega)
        have hlt : m < n + 1 := by
          have : (m : ℚ) < n + 1 := by linarith
          exact_mod_cast this
        have hgt : n < m := by
          have : (n : ℚ) < m := by linarith
          exact_mod_cast this
        omega
      change n + n % 2 = m
      omega
    | true =>
      simp only [Describes] at h
      have hle : m < n + 2 := by
        have : (m : ℚ) < n + 2 := by linarith
        exact_mod_cast this
      have hge : n < m := by
        have : (n : ℚ) < m := by linarith
        exact_mod_cast this
      change n + 1 = m
      omega

end

theorem describes_exact (m : ℕ) : Describes (.ofMantissaAndAccuracy m .exact) m := rfl

/-- What is left of a division says where the quotient lies. -/
theorem describes_fraction (n : ℕ) {d : ℕ} (hd : 0 < d) :
    Describes (.ofMantissaAndAccuracy (n / d) (accuracyOfFraction (n % d) d)) (n / d) := by
  have hd' : (0 : ℚ) < d := by exact_mod_cast hd
  have hn : ((n : ℕ) : ℚ) / d = ((n / d : ℕ) : ℚ) + ((n % d : ℕ) : ℚ) / d := by
    have hcast : ((n : ℕ) : ℚ) = ((n / d : ℕ) : ℚ) * d + ((n % d : ℕ) : ℚ) := by
      exact_mod_cast (Nat.div_add_mod' n d).symm
    field_simp
    linarith
  have hlt : ((n % d : ℕ) : ℚ) / d < 1 := by
    rw [div_lt_one hd']
    exact_mod_cast Nat.mod_lt n hd
  rw [hn]
  unfold accuracyOfFraction
  split
  · next hzero => simp [Describes, ExtendedMantissa.ofMantissaAndAccuracy, hzero]
  · next hrest =>
    have hpos : 0 < ((n % d : ℕ) : ℚ) / d := by
      have : (0 : ℚ) < ((n % d : ℕ) : ℚ) := by exact_mod_cast Nat.pos_of_ne_zero hrest
      exact div_pos this hd'
    cases hcompare : compare (2 * (n % d)) d with
    | lt =>
      have hhalf : ((n % d : ℕ) : ℚ) / d < 1 / 2 := by
        rw [div_lt_iff₀ hd']
        have : ((2 * (n % d) : ℕ) : ℚ) < d := by exact_mod_cast compare_lt_iff_lt.1 hcompare
        push_cast at this
        linarith
      simp only [Describes, ExtendedMantissa.ofMantissaAndAccuracy]
      constructor <;> linarith
    | eq =>
      have hhalf : ((n % d : ℕ) : ℚ) / d = 1 / 2 := by
        rw [div_eq_iff hd'.ne']
        have : ((2 * (n % d) : ℕ) : ℚ) = d := by exact_mod_cast compare_eq_iff_eq.1 hcompare
        push_cast at this
        linarith
      exact congrArg _ hhalf
    | gt =>
      have hhalf : 1 / 2 < ((n % d : ℕ) : ℚ) / d := by
        rw [lt_div_iff₀ hd']
        have : (d : ℚ) < ((2 * (n % d) : ℕ) : ℚ) := by exact_mod_cast compare_gt_iff_gt.1 hcompare
        push_cast at this
        linarith
      simp only [Describes, ExtendedMantissa.ofMantissaAndAccuracy]
      constructor <;> linarith

/-- The mantissa and the exponent of a float that is not zero. -/
structure IsCanonical (m : ℕ) (e : ℤ) : Prop where
  pos : 0 < m
  lt : m < 2 ^ 53
  least : -1074 ≤ e
  normal : 2 ^ 52 ≤ m ∨ e = -1074

section

variable {m : ℕ} {e t : ℤ} {accuracy : Accuracy} {v : ℚ}

theorem two_zpow_pos (e : ℤ) : (0 : ℚ) < 2 ^ e := zpow_pos (by norm_num) e

theorem log2_le {m k : ℕ} (h : m < 2 ^ (k + 1)) : m.log2 ≤ k := by
  by_cases hm : m = 0
  · simp [hm]
  · exact Nat.le_of_lt_succ ((Nat.log2_lt hm).2 h)

theorem targetExponent_totalExponent (m : ℕ) (e : ℤ) :
    Format.binary64.targetExponent (totalExponent m e) = max ((m.log2 : ℤ) + 1 + e - 53) (-1074) :=
  rfl

theorem targetExponent_eq {k : ℕ} (hlog : m.log2 ≤ 52 + k) (hk : -1074 ≤ e + k)
    (hge : 2 ^ (52 + k) ≤ m ∨ e + k = -1074) :
    Format.binary64.targetExponent (totalExponent m e) = e + k := by
  rw [targetExponent_totalExponent]
  rcases hge with hge | hge
  · have hpos : m ≠ 0 := by
      have := Nat.two_pow_pos (52 + k)
      omega
    have hlog' : 52 + k ≤ m.log2 := (Nat.le_log2 hpos).2 hge
    omega
  · omega

/-- A number that is held finely enough is cut off where its size demands it. -/
theorem exists_shiftToTargetExponent
    (h : Describes (.ofMantissaAndAccuracy m accuracy) (v / 2 ^ e)) (hfine : 2 ^ 52 ≤ m ∨ e ≤ -1074)
    (ht : -1074 ≤ t) (hlt : v < 2 ^ 53 * 2 ^ t) (hge : 2 ^ 52 * 2 ^ t ≤ v ∨ t = -1074) :
    ∃ em, shiftToTargetExponent .binary64 m e accuracy = (em, t) ∧ Describes em (v / 2 ^ t) := by
  have hfloor := h.floor
  have hmantissa : (ExtendedMantissa.ofMantissaAndAccuracy m accuracy).mantissa = m := by
    cases accuracy with
    | exact => rfl
    | inexact o => cases o <;> rfl
  rw [hmantissa] at hfloor
  have hupper : (m : ℚ) < 2 ^ (53 + t - e) := by
    refine hfloor.1.trans_lt ?_
    rw [div_lt_iff₀ (two_zpow_pos e), ← zpow_add₀ two_ne_zero, sub_add_cancel,
      zpow_add₀ two_ne_zero]
    exact hlt
  have het : e ≤ t := by
    rcases hfine with hfine | hfine
    · have hpow : (2 : ℚ) ^ (52 : ℤ) < 2 ^ (53 + t - e) :=
        lt_of_le_of_lt (by exact_mod_cast hfine) hupper
      have := (zpow_lt_zpow_iff_right₀ (by norm_num : (1 : ℚ) < 2)).1 hpow
      omega
    · omega
  obtain ⟨k, rfl⟩ := Int.le.dest het
  have hlog : m.log2 ≤ 52 + k := by
    refine log2_le ?_
    have hk : 53 + (e + (k : ℤ)) - e = ((52 + k + 1 : ℕ) : ℤ) := by push_cast; ring
    rw [hk, zpow_natCast] at hupper
    exact_mod_cast hupper
  have hlower : 2 ^ (52 + k) ≤ m ∨ e + k = -1074 := by
    refine hge.imp_left fun hge ↦ ?_
    have hpow : (2 : ℚ) ^ (52 + k) < m + 1 := by
      refine lt_of_le_of_lt ?_ hfloor.2
      rw [le_div_iff₀ (two_zpow_pos e), pow_add, mul_assoc, ← zpow_natCast 2 k,
        ← zpow_add₀ two_ne_zero, add_comm (k : ℤ)]
      exact hge
    have : 2 ^ (52 + k) < m + 1 := by exact_mod_cast hpow
    omega
  have hshift := h.shiftRight k
  rw [div_div, ← zpow_natCast, ← zpow_add₀ two_ne_zero] at hshift
  refine ⟨_, ?_, hshift⟩
  rw [shiftToTargetExponent, targetExponent_eq hlog ht hlower, shiftToExponent,
    add_sub_cancel_left, Int.toNat_natCast]

theorem IsCanonical.shiftToTargetExponent_eq (h : IsCanonical m e) :
    shiftToTargetExponent .binary64 m e .exact = (⟨m, false, false⟩, e) := by
  have hlog : m.log2 ≤ 52 := log2_le h.lt
  have hleast := h.least
  have hshift : (Format.binary64.targetExponent (totalExponent m e) - e).toNat = 0 := by
    rw [targetExponent_totalExponent]
    omega
  rw [shiftToTargetExponent, shiftToExponent, hshift]
  exact congrArg _ (add_zero e)

/-- A mantissa that has got one bit too many by rounding is a power of two. -/
theorem shiftToTargetExponent_carry (h : -1074 ≤ e) :
    shiftToTargetExponent .binary64 (2 ^ 53) e .exact = (⟨2 ^ 52, false, false⟩, e + 1) := by
  have htarget : Format.binary64.targetExponent (totalExponent (2 ^ 53) e) = e + 1 := by
    rw [targetExponent_totalExponent, Nat.log2_two_pow]
    omega
  rw [shiftToTargetExponent, htarget, shiftToExponent, add_sub_cancel_left]
  rfl

/-- The numbers that are rounded to the float `m * 2 ^ e`. Below a power of two, save the least one,
the floats are twice as dense. The ends count where the mantissa is even. -/
structure RoundsTo (v : ℚ) (m : ℕ) (e : ℤ) : Prop where
  low : ((m : ℚ) - if m = 2 ^ 52 ∧ -1074 < e then 1 / 4 else 1 / 2) * 2 ^ e ≤ v
  high : v ≤ ((m : ℚ) + 1 / 2) * 2 ^ e
  odd : m % 2 = 1 → ((m : ℚ) - 1 / 2) * 2 ^ e < v ∧ v < ((m : ℚ) + 1 / 2) * 2 ^ e

theorem roundsTo_self (m : ℕ) (e : ℤ) : RoundsTo (m * 2 ^ e) m e := by
  have he := two_zpow_pos e
  refine ⟨mul_le_mul_of_nonneg_right ?_ he.le, by linarith, fun _ ↦ ⟨by linarith, by linarith⟩⟩
  split <;> linarith

theorem RoundsTo.half_le (h : RoundsTo v m e) : ((m : ℚ) - 1 / 2) * 2 ^ e ≤ v := by
  refine le_trans (mul_le_mul_of_nonneg_right ?_ (two_zpow_pos e).le) h.low
  split <;> linarith

theorem RoundsTo.pos (h : RoundsTo v m e) (hm : 0 < m) : 0 < v := by
  have hone : (1 : ℚ) ≤ m := by exact_mod_cast hm
  exact (mul_pos (by linarith) (two_zpow_pos e)).trans_le h.half_le

theorem RoundsTo.roundedMantissa_eq (h : RoundsTo v m e) {em : ExtendedMantissa}
    (hem : Describes em (v / 2 ^ e)) : em.roundedMantissa = m := by
  have he := two_zpow_pos e
  refine hem.roundedMantissa_eq ?_ ?_ ?_
  · rw [le_div_iff₀ he]
    exact h.half_le
  · rw [div_le_iff₀ he]
    exact h.high
  · intro hodd
    rw [lt_div_iff₀ he, div_lt_iff₀ he]
    exact h.odd hodd

/-- What is rounded up to a power of two is less than a quarter away from it, which is half a place
of the floats below. -/
theorem RoundsTo.eq_and_le_of_lt (h : RoundsTo v m e) (hm : IsCanonical m e) (he : -1074 < e)
    (hbelow : v < 2 ^ 52 * 2 ^ e) :
    m = 2 ^ 52 ∧ (2 ^ 53 - 1 / 2) * 2 ^ (e - 1) ≤ v ∧ v < 2 ^ 53 * 2 ^ (e - 1) := by
  have hpower : m = 2 ^ 52 := by
    have hmlt : (m : ℚ) < 2 ^ 52 + 1 := by
      have := (mul_lt_mul_iff_of_pos_right (two_zpow_pos e)).1 (h.half_le.trans_lt hbelow)
      linarith
    have hle : m < 2 ^ 52 + 1 := by exact_mod_cast hmlt
    have hnormal := hm.normal
    omega
  have hhalf : (2 : ℚ) ^ e = 2 * 2 ^ (e - 1) := by
    rw [← zpow_one_add₀ two_ne_zero, add_sub_cancel]
  have hquarter := h.low
  rw [if_pos ⟨hpower, he⟩, hpower, hhalf] at hquarter
  rw [hhalf] at hbelow
  push_cast at hquarter
  exact ⟨hpower, by linarith, by linarith⟩

end

/-- A number that is held finely enough is rounded to its nearest float. -/
theorem roundWithAccuracy_eq {n m : ℕ} {e q : ℤ} {accuracy : Accuracy} {v : ℚ}
    (hm : IsCanonical m q) (hround : RoundsTo v m q)
    (h : Describes (.ofMantissaAndAccuracy n accuracy) (v / 2 ^ e))
    (hfine : 2 ^ 52 ≤ n ∨ e ≤ -1074) (s : Sign) :
    roundWithAccuracy .binary64 s n e accuracy = .finite s m q hm.pos := by
  have hsmall : v < 2 ^ 53 * 2 ^ q := by
    have hlt : (m : ℚ) + 1 ≤ 2 ^ 53 := by exact_mod_cast hm.lt
    nlinarith [hround.high, two_zpow_pos q]
  by_cases hbinade : 2 ^ 52 * 2 ^ q ≤ v ∨ q = -1074
  · obtain ⟨em, hshift, hem⟩ := exists_shiftToTargetExponent h hfine hm.least hsmall hbinade
    rw [roundWithAccuracy, hshift]
    dsimp only
    rw [hround.roundedMantissa_eq hem, hm.shiftToTargetExponent_eq]
    exact dif_neg hm.pos.ne'
  · -- Below a power of two the mantissa has one more bit, and a carry leads back to it.
    push Not at hbinade
    obtain ⟨hbelow, hleast⟩ := hbinade
    have hq : -1074 < q := lt_of_le_of_ne hm.least (Ne.symm hleast)
    obtain ⟨rfl, hle, hlt⟩ := hround.eq_and_le_of_lt hm hq hbelow
    have ht := two_zpow_pos (q - 1)
    obtain ⟨em, hshift, hem⟩ := exists_shiftToTargetExponent h hfine
      (t := q - 1) (by omega) hlt (.inl (by linarith))
    have hrounded : em.roundedMantissa = 2 ^ 53 := by
      refine hem.roundedMantissa_eq ?_ ?_ ?_
      · rw [le_div_iff₀ ht]
        exact_mod_cast hle
      · rw [div_le_iff₀ ht]
        push_cast
        linarith
      · intro hodd
        norm_num at hodd
    rw [roundWithAccuracy, hshift]
    dsimp only
    rw [hrounded, shiftToTargetExponent_carry (by omega)]
    dsimp only
    rw [dif_neg (by norm_num)]
    congr 1
    omega

section

variable {m₁ m₂ m : ℕ} {e₁ e₂ q : ℤ} {h₁ : 0 < m₁} {h₂ : 0 < m₂}

theorem mul_eq (hm : IsCanonical m q) (hfine : 2 ^ 52 ≤ m₁ * m₂ ∨ e₁ + e₂ ≤ -1074)
    (hround : RoundsTo ((m₁ * 2 ^ e₁) * (m₂ * 2 ^ e₂)) m q) :
    UnpackedFloat.mul .binary64 (.finite .positive m₁ e₁ h₁) (.finite .positive m₂ e₂ h₂) =
      .finite .positive m q hm.pos := by
  refine roundWithAccuracy_eq hm hround ?_ hfine .positive
  have hvalue : (m₁ * 2 ^ e₁ : ℚ) * (m₂ * 2 ^ e₂) / 2 ^ (e₁ + e₂) = ((m₁ * m₂ : ℕ) : ℚ) := by
    rw [div_eq_iff (two_zpow_pos _).ne', zpow_add₀ two_ne_zero]
    push_cast
    ring
  rw [hvalue]
  exact describes_exact _

/-- A quotient is worked out to as many bits as a mantissa has, or as far as the least float. -/
theorem divCore_fine (h₁ : 0 < m₁) (h₂ : 0 < m₂) :
    2 ^ 52 ≤ (divCore .binary64 m₁ e₁ m₂ e₂).1 ∨
      (divCore .binary64 m₁ e₁ m₂ e₂).2.1 ≤ -1074 := by
  obtain ⟨t, ht⟩ : ∃ t, t = min (e₁ - e₂) (Format.binary64.targetExponent
      (totalExponent m₁ e₁ - totalExponent m₂ e₂)) := ⟨_, rfl⟩
  have htarget : Format.binary64.targetExponent (totalExponent m₁ e₁ - totalExponent m₂ e₂) =
      max ((m₁.log2 : ℤ) + 1 + e₁ - ((m₂.log2 : ℤ) + 1 + e₂) - 53) (-1074) := rfl
  rw [htarget] at ht
  rw [divCore, htarget]
  dsimp only
  rw [← ht]
  by_cases hleast : t ≤ -1074
  · exact .inr hleast
  · left
    obtain ⟨k, hk⟩ : ∃ k : ℕ, (k : ℤ) = e₁ - e₂ - t := ⟨(e₁ - e₂ - t).toNat, by omega⟩
    have hshift : (e₁ - e₂ - t).toNat = k := by omega
    have hbits : m₂.log2 + 1 + 52 ≤ m₁.log2 + k := by omega
    rw [hshift, Nat.le_div_iff_mul_le h₂, Nat.shiftLeft_eq]
    calc 2 ^ 52 * m₂
      _ ≤ 2 ^ 52 * 2 ^ (m₂.log2 + 1) := Nat.mul_le_mul_left _ Nat.lt_log2_self.le
      _ = 2 ^ (m₂.log2 + 1 + 52) := by rw [← pow_add, add_comm]
      _ ≤ 2 ^ (m₁.log2 + k) := Nat.pow_le_pow_right (by norm_num) hbits
      _ = 2 ^ m₁.log2 * 2 ^ k := pow_add _ _ _
      _ ≤ m₁ * 2 ^ k := Nat.mul_le_mul_right _ (Nat.log2_self_le h₁.ne')

theorem describes_divCore (h₂ : 0 < m₂) {n : ℕ} {e : ℤ} {accuracy : Accuracy}
    (h : divCore .binary64 m₁ e₁ m₂ e₂ = (n, e, accuracy)) :
    Describes (.ofMantissaAndAccuracy n accuracy) ((m₁ * 2 ^ e₁) / (m₂ * 2 ^ e₂) / 2 ^ e) := by
  obtain ⟨t, ht⟩ : ∃ t, t = min (e₁ - e₂) (Format.binary64.targetExponent
      (totalExponent m₁ e₁ - totalExponent m₂ e₂)) := ⟨_, rfl⟩
  rw [divCore, ← ht] at h
  obtain ⟨k, hk⟩ : ∃ k : ℕ, e₁ = k + e₂ + t := ⟨(e₁ - e₂ - t).toNat, by omega⟩
  have hshift : (e₁ - e₂ - t).toNat = k := by omega
  rw [hshift, Nat.shiftLeft_eq] at h
  obtain ⟨rfl, rfl, rfl⟩ := by simpa only [Prod.mk.injEq] using h
  have hvalue : (m₁ * 2 ^ e₁ : ℚ) / (m₂ * 2 ^ e₂) / 2 ^ t = ((m₁ * 2 ^ k : ℕ) : ℚ) / m₂ := by
    have := two_zpow_pos e₂
    have := two_zpow_pos t
    rw [hk, zpow_add₀ two_ne_zero, zpow_add₀ two_ne_zero, zpow_natCast]
    push_cast
    field_simp
  rw [hvalue]
  exact describes_fraction _ h₂

theorem div_eq (hm : IsCanonical m q)
    (hround : RoundsTo ((m₁ * 2 ^ e₁) / (m₂ * 2 ^ e₂)) m q) :
    UnpackedFloat.div .binary64 (.finite .positive m₁ e₁ h₁) (.finite .positive m₂ e₂ h₂) =
      .finite .positive m q hm.pos :=
  roundWithAccuracy_eq hm hround (describes_divCore h₂ rfl) (divCore_fine h₁ h₂) .positive

end

/-- A whole number that fits into a mantissa is moved up until it fills it. -/
theorem normalize_natCast {n k : ℕ} (hk : n.log2 + k = 52)
    (hm : IsCanonical (n * 2 ^ k) (-k)) :
    UnpackedFloat.normalize .binary64 (n : ℤ) 0 .positive =
      .finite .positive (n * 2 ^ k) (-k) hm.pos := by
  have hpos : 0 < n := Nat.pos_of_mul_pos_right hm.pos
  have hcompare : compare (n : ℤ) 0 = .gt := by
    rw [compare_gt_iff_gt]
    exact_mod_cast hpos
  have htarget : Format.binary64.targetExponent (totalExponent n 0) = -k := by
    have hdef : Format.binary64.targetExponent (totalExponent n 0) =
        max ((n.log2 : ℤ) + 1 + 0 - 53) (-1074) := rfl
    rw [hdef]
    omega
  rw [UnpackedFloat.normalize, hcompare]
  dsimp only
  have hshift : (0 - -(k : ℤ)).toNat = k := by omega
  rw [UnpackedFloat.round, Int.toNat_natCast, htarget, decreaseExponent, hshift,
    Nat.shiftLeft_eq, zero_sub]
  have hround := roundsTo_self (n * 2 ^ k) (-k)
  refine roundWithAccuracy_eq hm hround ?_ (hm.normal.imp id fun h ↦ by omega) .positive
  rw [mul_div_cancel_right₀ _ (two_zpow_pos _).ne']
  exact describes_exact _

end CovarianceSearch.FloatRounding
