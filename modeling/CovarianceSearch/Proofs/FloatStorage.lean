import CovarianceSearch.Proofs.FloatRounding

namespace CovarianceSearch.FloatRounding

open Float.Model UnpackedFloat

structure IsStored (m : ℕ) (e : ℤ) : Prop extends IsCanonical m e where
  most : e ≤ 971

theorem toNat_unpackExponent (b : BitVec 64) :
    (@unpackExponent .binary64 b).toNat = (b.toNat >>> 52) % 2048 := by
  simp [unpackExponent, Format.binary64]

theorem toNat_unpackMantissa (b : BitVec 64) :
    (@unpackMantissa .binary64 b).toNat = b.toNat % 2 ^ 52 := by
  simp [unpackMantissa, Format.binary64]

theorem toNat_unpackSign (b : BitVec 64) :
    (@unpackSign .binary64 b).toNat = b.toNat >>> 63 := by
  have hbit : b.toNat >>> 63 < 2 := by
    rw [Nat.shiftRight_eq_div_pow]
    have := b.isLt
    omega
  have hextract : (@unpackSign .binary64 b).toNat = (b.toNat >>> 63) % 2 := by
    simp [unpackSign, Format.binary64]
  omega

theorem toNat_one_append (v : BitVec 52) : (1#1 ++ v).toNat = 2 ^ 52 + v.toNat := by
  rw [BitVec.toNat_append, ← Nat.shiftLeft_add_eq_or_of_lt v.isLt]
  rfl

section

variable {b : BitVec 64} {s : Sign} {m : ℕ} {e : ℤ} {hm : 0 < m}

theorem fields_of_unpack (h : UnpackedFloat.unpack .binary64 b = .finite s m e hm) :
    s = .ofBitVec (@unpackSign .binary64 b) ∧ b.toNat >>> 52 % 2048 < 2047 ∧
      (b.toNat >>> 52 % 2048 = 0 ∧ m = b.toNat % 2 ^ 52 ∧ e = -1074 ∨
        0 < b.toNat >>> 52 % 2048 ∧ m = 2 ^ 52 + b.toNat % 2 ^ 52 ∧
          e = (b.toNat >>> 52 % 2048 : ℕ) - 1075) := by
  have hexponent := FloatSign.unpackExponent_ne_allOnes h
  rw [← toNat_unpackExponent, ← toNat_unpackMantissa]
  have hlt : (@unpackExponent .binary64 b).toNat < 2047 := by
    have := (@unpackExponent .binary64 b).isLt
    have hne : (@unpackExponent .binary64 b).toNat ≠ (-1#11).toNat :=
      fun heq ↦ hexponent (BitVec.eq_of_toNat_eq heq)
    change _ ≠ 2047 at hne
    change _ < 2048 at this
    omega
  simp only [UnpackedFloat.unpack, if_neg hexponent] at h
  split at h
  · next hzero =>
    split at h
    · cases h
    · cases h
      have hz : (@unpackExponent .binary64 b).toNat = 0 := congrArg BitVec.toNat hzero
      refine ⟨rfl, hlt, .inl ⟨hz, rfl, ?_⟩⟩
      rw [hz]
      rfl
  · next hzero =>
    cases h
    refine ⟨rfl, hlt, .inr ⟨?_, toNat_one_append _, rfl⟩⟩
    exact Nat.pos_of_ne_zero fun hz ↦ hzero (BitVec.eq_of_toNat_eq hz)

theorem fields_of_unpack_zero (h : UnpackedFloat.unpack .binary64 b = .zero s) :
    b.toNat >>> 52 % 2048 = 0 ∧ b.toNat % 2 ^ 52 = 0 := by
  rw [← toNat_unpackExponent, ← toNat_unpackMantissa]
  simp only [UnpackedFloat.unpack] at h
  split at h
  · split at h <;> cases h
  · split at h
    · next hexponent =>
      split at h
      · next hmantissa => exact ⟨congrArg BitVec.toNat hexponent, congrArg BitVec.toNat hmantissa⟩
      · cases h
    · cases h

theorem sign_of_unpack (h : FloatSign.sign? (UnpackedFloat.unpack .binary64 b) = some s) :
    s = .negative ↔ 2 ^ 63 ≤ b.toNat := by
  have hsign : s = .ofBitVec (@unpackSign .binary64 b) := by
    simp only [UnpackedFloat.unpack] at h
    split at h
    · split at h
      · exact (Option.some.inj h).symm
      · cases h
    · split at h
      · split at h <;> exact (Option.some.inj h).symm
      · exact (Option.some.inj h).symm
  have hbit := toNat_unpackSign b
  rw [Nat.shiftRight_eq_div_pow] at hbit
  rw [hsign, Sign.ofBitVec]
  split
  · next hzero =>
    rw [hzero] at hbit
    change 0 = _ at hbit
    simp only [reduceCtorEq, false_iff]
    omega
  · next hone =>
    have hne : (@unpackSign .binary64 b).toNat ≠ 0 := fun hz ↦ hone (BitVec.eq_of_toNat_eq hz)
    simp only [true_iff]
    omega

theorem isStored_of_unpack (h : UnpackedFloat.unpack .binary64 b = .finite s m e hm) :
    IsStored m e := by
  obtain ⟨-, hlt, hsmall | hlarge⟩ := fields_of_unpack h
  · exact ⟨⟨hm, by omega, by omega, by omega⟩, by omega⟩
  · exact ⟨⟨hm, by omega, by omega, by omega⟩, by omega⟩

section

variable {k : ℕ}

theorem unpack_packComponents_normal (hlt : m < 2 ^ 53) (hnormal : 2 ^ 52 ≤ m) (hpos : 0 < k)
    (hsmall : ¬ 2 ^ 11 ≤ k + 1) : UnpackedFloat.unpack .binary64 (packComponents .binary64
      s (BitVec.ofNat 11 k) (BitVec.ofNat 52 m)) = .finite s m (k - 1075) hm := by
  have hones : BitVec.ofNat 11 k ≠ -1#11 := FloatSign.ofNat_ne_allOnes hsmall
  have hzero : BitVec.ofNat 11 k ≠ 0#11 := fun hz ↦ by
    have : k % 2 ^ 11 = 0 := by simpa using congrArg BitVec.toNat hz
    omega
  have hmantissa : (1#1 ++ BitVec.ofNat 52 m).toNat = m := by
    rw [toNat_one_append, BitVec.toNat_ofNat]
    omega
  have hexponent : ((BitVec.ofNat 11 k).toNat : ℤ) - 1075 = k - 1075 := by
    rw [BitVec.toNat_ofNat]
    omega
  simp only [UnpackedFloat.unpack, unpackExponent_packComponents,
    unpackMantissa_packComponents, unpackSign_packComponents, Sign.ofBitVec_toBitVec]
  rw [if_neg hones, if_neg hzero]
  congr 1

theorem unpack_packComponents_subnormal (hlt : m < 2 ^ 52) : UnpackedFloat.unpack .binary64
    (packComponents .binary64 s 0#11 (BitVec.ofNat 52 m)) = .finite s m (-1074) hm := by
  have hmantissa : (BitVec.ofNat 52 m).toNat = m := by
    rw [BitVec.toNat_ofNat]
    omega
  have hzero : BitVec.ofNat 52 m ≠ 0#52 := fun hz ↦ by
    rw [hz] at hmantissa
    exact hm.ne hmantissa
  simp only [UnpackedFloat.unpack, unpackExponent_packComponents,
    unpackMantissa_packComponents, unpackSign_packComponents, Sign.ofBitVec_toBitVec]
  rw [if_neg (by decide), if_pos trivial, dif_neg hzero]
  congr 1

end

theorem IsStored.unpack_pack (h : IsStored m e) (s : Sign) :
    (Float.Model.pack (.finite s m e h.pos)).unpack = .finite s m e h.pos := by
  change UnpackedFloat.unpack .binary64 (UnpackedFloat.pack .binary64 _) = _
  have hlt := h.lt
  have hleast := h.least
  have hmost := h.most
  obtain ⟨k, rfl⟩ : ∃ k : ℕ, e = k - 1075 := ⟨(e + 1075).toNat, by omega⟩
  have hbiased : ((k : ℤ) - 1075 + Format.binary64.exponentBias +
      (Format.binary64.mantissaBitsWithoutImplicit : ℤ)).toNat = k := by
    change ((k : ℤ) - 1075 + 1023 + 52).toNat = k
    omega
  have hsmall : ¬ 2 ^ Format.binary64.exponentBits ≤ k + 1 := by
    change ¬ 2 ^ 11 ≤ k + 1
    omega
  rw [UnpackedFloat.pack, hbiased]
  dsimp only
  rw [if_neg hsmall]
  by_cases hnormal : 2 ^ 52 ≤ m
  · have hlog : m.log2 + 1 = Format.binary64.mantissaBits := by
      have hle : m.log2 ≤ 52 := log2_le hlt
      have hge : 52 ≤ m.log2 := (Nat.le_log2 h.pos.ne').2 hnormal
      change m.log2 + 1 = 53
      omega
    rw [if_pos hlog]
    exact unpack_packComponents_normal hlt hnormal (by omega) hsmall
  · have hlog : m.log2 + 1 ≠ Format.binary64.mantissaBits := by
      have hlt' : m.log2 < 52 := (Nat.log2_lt h.pos.ne').2 (not_le.1 hnormal)
      change m.log2 + 1 ≠ 53
      omega
    have hk : k = 1 := by
      have := h.normal
      omega
    subst hk
    rw [if_neg hlog]
    exact unpack_packComponents_subnormal (not_le.1 hnormal)

theorem IsStored.lt_of_roundsTo {v : ℚ} (h : IsStored m e) (hround : RoundsTo v m e) :
    v < 2 ^ (1024 : ℤ) := by
  have hm : (m : ℚ) + 1 ≤ 2 ^ 53 := by exact_mod_cast h.lt
  calc v
    _ ≤ (m + 1 / 2) * 2 ^ e := hround.high
    _ < 2 ^ 53 * 2 ^ e := mul_lt_mul_of_pos_right (by linarith) (two_zpow_pos e)
    _ ≤ 2 ^ 53 * 2 ^ (971 : ℤ) :=
      mul_le_mul_of_nonneg_left (zpow_le_zpow_right₀ (by norm_num) h.most) (by norm_num)
    _ = 2 ^ (1024 : ℤ) := by rw [← zpow_natCast, ← zpow_add₀ two_ne_zero]; rfl

theorem IsStored.le_of_roundsTo {v : ℚ} (h : IsStored m e) (hround : RoundsTo v m e) :
    2 ^ (-1075 : ℤ) ≤ v := by
  have hm : (1 : ℚ) ≤ m := by exact_mod_cast h.pos
  calc (2 : ℚ) ^ (-1075 : ℤ)
    _ = 1 / 2 * 2 ^ (-1074 : ℤ) := by
      rw [one_div, ← zpow_neg_one, ← zpow_add₀ two_ne_zero]; rfl
    _ ≤ 1 / 2 * 2 ^ e :=
      mul_le_mul_of_nonneg_left (zpow_le_zpow_right₀ (by norm_num) h.least) (by norm_num)
    _ ≤ (m - 1 / 2) * 2 ^ e := mul_le_mul_of_nonneg_right (by linarith) (two_zpow_pos e).le
    _ ≤ v := hround.half_le

theorem ofModel_pack {x : Float} {a : UnpackedFloat} (h : x.toModel.unpack = a) :
    Float.ofModel (Float.Model.pack a) = x := by
  rw [← h, ← Float.toBits_inj]
  exact congrArg UInt64.ofBitVec (pack_unpack_of_valid x.toModel.valid)

theorem neg_eq {x y : Float} {a : UnpackedFloat} (hx : x.toModel.unpack = a)
    (hy : y.toModel.unpack = a.neg) : -x = y := by
  rw [← ofModel_pack hy, ← hx]
  rfl

theorem neg_neg_of_isFinite {x : Float} (h : x.isFinite = true) : -(-x) = x := by
  rcases FloatSign.exists_unpack_of_isFinite h with ⟨s, hx⟩ | ⟨s, m, e, hm, hx⟩
  · have hneg : (-x).toModel.unpack = .zero (-s) := by
      change (Float.Model.pack x.toModel.unpack.neg).unpack = _
      rw [hx]
      exact unpack_packedZero
    exact neg_eq hneg (hx.trans (by cases s <;> rfl))
  · have hneg : (-x).toModel.unpack = .finite (-s) m e hm := by
      change (Float.Model.pack x.toModel.unpack.neg).unpack = _
      rw [hx]
      exact FloatSign.unpack_pack_finite hx (-s)
    exact neg_eq hneg (hx.trans (by cases s <;> rfl))

end

end CovarianceSearch.FloatRounding
