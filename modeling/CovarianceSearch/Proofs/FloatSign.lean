import CovarianceSearch.Proofs.FloatOrder

namespace CovarianceSearch.FloatSign

open Float.Model UnpackedFloat

def sign? : UnpackedFloat → Option Sign
  | .notANumber => none
  | .infinity s | .zero s | .finite s _ _ _ => some s

theorem isNaN_eq_false_iff {a : UnpackedFloat} : a.isNaN = false ↔ ∃ s, sign? a = some s := by
  cases a <;> simp [sign?, UnpackedFloat.isNaN]

theorem sign?_packComponents (s : Sign) {e : BitVec 11} {m : BitVec 52}
    (h : e = -1#11 → m = 0#52) :
    sign? (UnpackedFloat.unpack .binary64 (packComponents .binary64 s e m)) = some s := by
  simp only [UnpackedFloat.unpack, unpackExponent_packComponents, unpackMantissa_packComponents,
    unpackSign_packComponents, Sign.ofBitVec_toBitVec]
  split
  · next he =>
    rw [if_pos (h he)]
    rfl
  · split
    · split <;> rfl
    · rfl

theorem ofNat_ne_allOnes {n : ℕ} (h : ¬ 2 ^ 11 ≤ n + 1) : BitVec.ofNat 11 n ≠ -1#11 := by
  intro he
  have hn : n % 2 ^ 11 = 2 ^ 11 - 1 := by simpa using congrArg BitVec.toNat he
  omega

/-- Rounding to what can be stored keeps the sign. -/
theorem sign?_unpack_pack (a : UnpackedFloat) :
    sign? (Float.Model.pack a).unpack = sign? a := by
  change sign? (UnpackedFloat.unpack .binary64 (a.pack .binary64)) = sign? a
  cases a with
  | notANumber => rw [UnpackedFloat.pack, unpack_packedNaN]
  | infinity s => exact sign?_packComponents s fun _ ↦ rfl
  | zero s => exact sign?_packComponents s fun _ ↦ rfl
  | finite s m e hm =>
    dsimp only [UnpackedFloat.pack]
    split
    · exact sign?_packComponents s fun _ ↦ rfl
    · next hbound =>
      split
      · exact sign?_packComponents s fun he ↦ absurd he (ofNat_ne_allOnes hbound)
      · exact sign?_packComponents s fun he ↦ absurd he (by decide)

theorem unpackExponent_ne_allOnes {b : BitVec 64} {s : Sign} {m : ℕ} {e : ℤ} {hm : 0 < m}
    (h : UnpackedFloat.unpack .binary64 b = .finite s m e hm) :
    @unpackExponent .binary64 b ≠ -1#11 := by
  intro he
  simp only [UnpackedFloat.unpack, if_pos he] at h
  split at h <;> cases h

/-- Another sign on a float that is stored changes nothing else. -/
theorem unpack_pack_finite {x : Float.Model} {s : Sign} {m : ℕ} {e : ℤ} {hm : 0 < m}
    (h : x.unpack = .finite s m e hm) (s' : Sign) :
    (Float.Model.pack (.finite s' m e hm)).unpack = .finite s' m e hm := by
  have hfinite : UnpackedFloat.unpack .binary64 x.toBits.toBitVec = .finite s m e hm := h
  have hexponent := unpackExponent_ne_allOnes hfinite
  -- The parts of the float with the other sign in front of them.
  obtain ⟨b, hb⟩ : ∃ b, b = packComponents .binary64 s'
      (@unpackExponent .binary64 x.toBits.toBitVec)
      (@unpackMantissa .binary64 x.toBits.toBitVec) := ⟨_, rfl⟩
  have hunpacked : UnpackedFloat.unpack .binary64 b = .finite s' m e hm := by
    simp only [UnpackedFloat.unpack, if_neg hexponent] at hfinite
    simp only [hb, UnpackedFloat.unpack, unpackExponent_packComponents,
      unpackMantissa_packComponents, unpackSign_packComponents, Sign.ofBitVec_toBitVec,
      if_neg hexponent]
    split at hfinite
    · next hzero =>
      rw [if_pos hzero]
      split at hfinite
      · cases hfinite
      · next hmantissa =>
        rw [dif_neg hmantissa]
        cases hfinite
        rfl
    · next hzero =>
      rw [if_neg hzero]
      cases hfinite
      rfl
  have hvalid : Format.binary64.Valid b :=
    ⟨fun he ↦ absurd he (unpackExponent_ne_allOnes hunpacked)⟩
  change UnpackedFloat.unpack .binary64 (UnpackedFloat.pack .binary64 _) = _
  rw [← hunpacked, pack_unpack_of_valid hvalid]

theorem sign?_roundWithAccuracy (s : Sign) (m : ℕ) (e : ℤ) (accuracy : Accuracy) :
    sign? (roundWithAccuracy .binary64 s m e accuracy) = some s := by
  dsimp only [roundWithAccuracy]
  split <;> rfl

/-- Two numbers have a quotient unless both are zero or both are infinite. -/
theorem sign?_div {a b : UnpackedFloat} {s t : Sign} (ha : sign? a = some s) (hb : sign? b = some t)
    (hzero : a ≠ .zero s ∨ b ≠ .zero t) (hinf : a ≠ .infinity s ∨ b ≠ .infinity t) :
    sign? (UnpackedFloat.div .binary64 a b) = some (s / t) := by
  cases a with
  | notANumber => cases ha
  | infinity s' =>
    cases ha
    cases b with
    | notANumber => cases hb
    | infinity t' => cases hb; simp at hinf
    | zero t' => cases hb; rfl
    | finite t' n f hn => cases hb; rfl
  | zero s' =>
    cases ha
    cases b with
    | notANumber => cases hb
    | infinity t' => cases hb; rfl
    | zero t' => cases hb; simp at hzero
    | finite t' n f hn => cases hb; rfl
  | finite s' m e hm =>
    cases ha
    cases b with
    | notANumber => cases hb
    | infinity t' => cases hb; rfl
    | zero t' => cases hb; rfl
    | finite t' n f hn =>
      cases hb
      exact sign?_roundWithAccuracy _ _ _ _

theorem sign?_abs {a : UnpackedFloat} (h : a.isNaN = false) : sign? a.abs = some .positive := by
  cases a with
  | notANumber => cases h
  | _ => rfl

theorem isNaN_normalize (m e : ℤ) (s : Sign) :
    (UnpackedFloat.normalize .binary64 m e s).isNaN = false := by
  unfold UnpackedFloat.normalize
  split
  · exact isNaN_eq_false_iff.2 ⟨_, sign?_roundWithAccuracy _ _ _ _⟩
  · rfl
  · exact isNaN_eq_false_iff.2 ⟨_, sign?_roundWithAccuracy _ _ _ _⟩

theorem isNaN_unpacked_sub {a b : UnpackedFloat} (ha : a.isFinite = true) (hb : b.isFinite = true) :
    (UnpackedFloat.sub .binary64 a b).isNaN = false := by
  cases a with
  | notANumber => cases ha
  | infinity s => cases ha
  | zero s =>
    cases b with
    | notANumber => cases hb
    | infinity t => cases hb
    | zero t => dsimp only [UnpackedFloat.sub]; split <;> rfl
    | finite t n f hn => rfl
  | finite s m e hm =>
    cases b with
    | notANumber => cases hb
    | infinity t => cases hb
    | zero t => rfl
    | finite t n f hn => exact isNaN_normalize _ _ _

variable {x y : Float}

theorem unpack_of_isNaN (h : x.isNaN = true) : x.toModel.unpack = .notANumber := by
  have hnumber : x.toModel.unpack.isNaN = true := h
  cases hx : x.toModel.unpack with
  | notANumber => rfl
  | _ => rw [hx] at hnumber; cases hnumber

theorem isNaN_mul (x : Float) (h : y.isNaN = true) : (x * y).isNaN = true := by
  change (Float.Model.pack
    (UnpackedFloat.mul .binary64 x.toModel.unpack y.toModel.unpack)).unpack.isNaN = true
  have hmul : UnpackedFloat.mul .binary64 x.toModel.unpack .notANumber = .notANumber := by
    cases x.toModel.unpack <;> rfl
  rw [unpack_of_isNaN h, hmul]
  decide

theorem isNaN_add (h : x.isNaN = true) (y : Float) : (x + y).isNaN = true := by
  change (Float.Model.pack
    (UnpackedFloat.add .binary64 x.toModel.unpack y.toModel.unpack)).unpack.isNaN = true
  have hadd : UnpackedFloat.add .binary64 .notANumber y.toModel.unpack = .notANumber := rfl
  rw [unpack_of_isNaN h, hadd]
  decide

theorem sign?_abs_float (h : x.isNaN = false) : sign? x.abs.toModel.unpack = some .positive :=
  (sign?_unpack_pack _).trans (sign?_abs h)

theorem isNaN_sub (hx : x.isFinite = true) (hy : y.isFinite = true) : (x - y).isNaN = false := by
  obtain ⟨s, hs⟩ := isNaN_eq_false_iff.1 (isNaN_unpacked_sub hx hy)
  exact isNaN_eq_false_iff.2 ⟨s, (sign?_unpack_pack _).trans hs⟩

theorem unpack_abs_of_finite {s : Sign} {m : ℕ} {e : ℤ} {hm : 0 < m}
    (h : x.toModel.unpack = .finite s m e hm) :
    x.abs.toModel.unpack = .finite .positive m e hm := by
  change (Float.Model.pack x.toModel.unpack.abs).unpack = _
  rw [h]
  exact unpack_pack_finite h .positive

theorem unpack_sub_of_zero {s t : Sign} {m : ℕ} {e : ℤ} {hm : 0 < m}
    (hx : x.toModel.unpack = .zero s) (hy : y.toModel.unpack = .finite t m e hm) :
    (x - y).toModel.unpack = .finite (-t) m e hm := by
  change (Float.Model.pack
    (UnpackedFloat.sub .binary64 x.toModel.unpack y.toModel.unpack)).unpack = _
  rw [hx, hy]
  exact unpack_pack_finite hy (-t)

theorem beq_of_zero {s t : Sign} (hx : x.toModel.unpack = .zero s)
    (hy : y.toModel.unpack = .zero t) : (x == y) = true := by
  change x.toModel.unpack.beq y.toModel.unpack = true
  rw [hx, hy]
  rfl

theorem exists_unpack_of_beq_zero (h : (x == 0.0) = true) : ∃ s, x.toModel.unpack = .zero s := by
  have hbeq : x.toModel.unpack.beq (.zero .positive) = true := h
  cases hx : x.toModel.unpack with
  | notANumber => rw [hx] at hbeq; cases hbeq
  | infinity s => rw [hx] at hbeq; cases s <;> cases hbeq
  | zero s => exact ⟨s, rfl⟩
  | finite s m e hm => rw [hx] at hbeq; cases s <;> cases hbeq

theorem unpack_abs_of_zero {s : Sign} (h : x.toModel.unpack = .zero s) :
    x.abs.toModel.unpack = .zero .positive := by
  change (Float.Model.pack x.toModel.unpack.abs).unpack = _
  rw [h]
  exact unpack_packedZero

theorem toModel_div_of_zero {s t : Sign} {m : ℕ} {e : ℤ} {hm : 0 < m}
    (hx : x.toModel.unpack = .finite s m e hm) (hy : y.toModel.unpack = .zero t) :
    (x / y).toModel = Float.Model.pack (.infinity (s / t)) := by
  change Float.Model.pack
    (UnpackedFloat.div .binary64 x.toModel.unpack y.toModel.unpack) = _
  rw [hx, hy]
  rfl

theorem isNaN_of_sign? (h : sign? x.toModel.unpack = some .positive) : x.isNaN = false :=
  isNaN_eq_false_iff.2 ⟨_, h⟩

theorem zero_le_of_sign? (h : sign? x.toModel.unpack = some .positive) : 0.0 ≤ x := by
  rw [FloatOrder.le_iff_unpack_le]
  have hzero : (0.0 : Float).toModel.unpack = .zero .positive := unpack_packedZero
  rw [hzero]
  cases hx : x.toModel.unpack with
  | notANumber => rw [hx] at h; cases h
  | infinity s => rw [hx] at h; cases h; rfl
  | zero s => rfl
  | finite s m e hm => rw [hx] at h; cases h; rfl

theorem exists_unpack_of_isFinite (h : x.isFinite = true) :
    (∃ s, x.toModel.unpack = .zero s) ∨ ∃ s m e hm, x.toModel.unpack = .finite s m e hm := by
  have hfinite : x.toModel.unpack.isFinite = true := h
  generalize x.toModel.unpack = a at hfinite
  cases a with
  | notANumber => cases hfinite
  | infinity s => cases hfinite
  | zero s => exact .inl ⟨s, rfl⟩
  | finite s m e hm => exact .inr ⟨s, m, e, hm, rfl⟩

/-- The difference of two different finite numbers has a quotient by the first one, even where that
is zero, and apart from signs it is not negative. -/
theorem sign?_abs_sub_div_abs (hx : x.isFinite = true) (hy : y.isFinite = true)
    (hne : (x == y) = false) : sign? ((x - y).abs / x.abs).toModel.unpack = some .positive := by
  have hnumerator := sign?_abs_float (isNaN_sub hx hy)
  have hdenominator := sign?_abs_float (FloatOrder.isNaN_of_isFinite hx)
  refine (sign?_unpack_pack _).trans ?_
  rcases exists_unpack_of_isFinite hx with ⟨s, hx⟩ | ⟨s, m, e, hm, hx⟩
  · -- The difference is the other number but for its sign, so it is not zero.
    rcases exists_unpack_of_isFinite hy with ⟨t, hy⟩ | ⟨t, m, e, hm, hy⟩
    · rw [beq_of_zero hx hy] at hne
      cases hne
    · have hdifference := unpack_abs_of_finite (unpack_sub_of_zero hx hy)
      refine sign?_div hnumerator hdenominator (.inl ?_) (.inl ?_) <;> rw [hdifference] <;> nofun
  · have hfirst := unpack_abs_of_finite hx
    refine sign?_div hnumerator hdenominator (.inr ?_) (.inr ?_) <;> rw [hfirst] <;> nofun

end CovarianceSearch.FloatSign
