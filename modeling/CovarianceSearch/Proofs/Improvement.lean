import CovarianceSearch.Proofs.FloatSign
import CovarianceSearch.Proofs.Ranked
import CovarianceSearch.Search

namespace CovarianceSearch

/-- What a table can have as a score. -/
def IsScore (x : Float) : Prop := x.isFinite = true ∨ x = Entry.infinity

namespace Improvement

theorem infinity_not_le {x : Float} (hx : x.isFinite = true) : ¬ Entry.infinity ≤ x := by
  intro h
  rw [FloatOrder.le_iff_unpack_le, show Entry.infinity.toModel.unpack = .infinity .positive by rfl]
    at h
  rcases FloatSign.exists_unpack_of_isFinite hx with ⟨s, hx⟩ | ⟨s, m, e, hm, hx⟩
  · rw [hx] at h
    cases h
  · rw [hx] at h
    cases h

theorem isInf_of_isFinite {x : Float} (hx : x.isFinite = true) : x.isInf = false := by
  change x.toModel.unpack.isInf = false
  rcases FloatSign.exists_unpack_of_isFinite hx with ⟨s, hx⟩ | ⟨s, m, e, hm, hx⟩ <;> rw [hx] <;> rfl

/-- By how much a score is better than the one before, as a part of that one. Whatever is better
than an infinite score, or than zero, is so infinitely. -/
inductive IsGain (previous current improvement : Float) : Prop
  | same : (previous == current) = true → improvement = 0.0 → IsGain previous current improvement
  | unbounded : current < previous → previous = Entry.infinity ∨ (previous == 0.0) = true →
      improvement = Entry.infinity → IsGain previous current improvement
  | ratio : current < previous → previous.isFinite = true → (previous == 0.0) = false →
      improvement = (previous - current).abs / previous.abs → IsGain previous current improvement

section

variable {previous current improvement : Float}

theorem IsGain.unique {improvement' : Float} (h : IsGain previous current improvement)
    (h' : IsGain previous current improvement') : improvement = improvement' := by
  have hsame : ∀ {i}, (previous == current) = true → IsGain previous current i → i = 0.0 := by
    intro i hbeq h
    cases h with
    | same _ hi => exact hi
    | unbounded hlt => exact absurd (FloatOrder.beq_eq_false_of_lt hlt) (by simp [hbeq])
    | ratio hlt => exact absurd (FloatOrder.beq_eq_false_of_lt hlt) (by simp [hbeq])
  have hbounded : previous.isFinite = true → (previous == 0.0) = false →
      ¬ (previous = Entry.infinity ∨ (previous == 0.0) = true) := by
    rintro hfinite hzero (rfl | hbeq)
    · exact absurd hfinite (by decide)
    · exact absurd hbeq (by simp [hzero])
  cases h with
  | same hbeq hi => rw [hi, hsame hbeq h']
  | unbounded hlt hbase hi =>
    cases h' with
    | same hbeq => exact absurd (FloatOrder.beq_eq_false_of_lt hlt) (by simp [hbeq])
    | unbounded _ _ hi' => rw [hi, hi']
    | ratio _ hfinite hzero => exact absurd hbase (hbounded hfinite hzero)
  | ratio hlt hfinite hzero hi =>
    cases h' with
    | same hbeq => exact absurd (FloatOrder.beq_eq_false_of_lt hlt) (by simp [hbeq])
    | unbounded _ hbase => exact absurd hbase (hbounded hfinite hzero)
    | ratio _ _ _ hi' => rw [hi, hi']

theorem IsGain.bounds (h : IsGain previous current improvement) (hcurrent : IsScore current) :
    improvement.isNaN = false ∧ 0.0 ≤ improvement ∧ improvement ≤ Entry.infinity := by
  have hsign : FloatSign.sign? improvement.toModel.unpack = some .positive := by
    cases h with
    | same _ hi =>
      rw [hi]
      rfl
    | unbounded _ _ hi =>
      rw [hi]
      rfl
    | ratio hlt hprevious _ hi =>
      rcases hcurrent with hcurrent | rfl
      · have hne := FloatOrder.beq_eq_false_of_lt hlt
        rw [hi]
        exact FloatSign.sign?_abs_sub_div_abs hprevious hcurrent hne
      · exact absurd (FloatOrder.le_of_lt hlt) (infinity_not_le hprevious)
  have hnan := FloatSign.isNaN_of_sign? hsign
  exact ⟨hnan, FloatSign.zero_le_of_sign? hsign, Entry.le_infinity hnan⟩

/-- Zero divides what is not zero an infinite number of times. -/
theorem abs_sub_div_abs_of_zero (hprevious : (previous == 0.0) = true)
    (hcurrent : current.isFinite = true) (hne : (previous == current) = false) :
    (previous - current).abs / previous.abs = Entry.infinity := by
  obtain ⟨s, hs⟩ := FloatSign.exists_unpack_of_beq_zero hprevious
  rcases FloatSign.exists_unpack_of_isFinite hcurrent with ⟨t, ht⟩ | ⟨t, m, e, hm, ht⟩
  · rw [FloatSign.beq_of_zero hs ht] at hne
    cases hne
  · have hdifference := FloatSign.unpack_abs_of_finite (FloatSign.unpack_sub_of_zero hs ht)
    have hquotient := FloatSign.toModel_div_of_zero hdifference (FloatSign.unpack_abs_of_zero hs)
    exact congrArg Float.ofModel hquotient

theorem relative_infinity (hcurrent : current.isFinite = true) :
    relative Entry.infinity current = Entry.infinity := by
  have hlt : current < Entry.infinity := by
    by_contra hnot
    apply infinity_not_le hcurrent
    exact FloatOrder.le_of_not_lt Entry.isNaN_infinity (FloatOrder.isNaN_of_isFinite hcurrent) hnot
  rw [relative, if_neg (by simp [FloatOrder.beq_eq_false_of_lt hlt]), hcurrent, Bool.and_true]
  rfl

theorem relative_of_isFinite (hprevious : previous.isFinite = true)
    (hcurrent : current.isFinite = true) (hlt : current < previous) :
    relative previous current = (previous - current).abs / previous.abs := by
  rw [relative, if_neg (by simp [FloatOrder.beq_eq_false_of_lt hlt]), isInf_of_isFinite hprevious,
    isInf_of_isFinite hcurrent, Bool.false_and, Bool.false_and, if_neg Bool.false_ne_true,
    if_neg Bool.false_ne_true, if_pos (FloatOrder.le_of_lt hlt)]

/-- The relative change between scores that do not get worse is the gain from one to the other. -/
theorem isGain_relative (hprevious : IsScore previous) (hcurrent : IsScore current)
    (hle : current ≤ previous) : IsGain previous current (relative previous current) := by
  cases hbeq : previous == current with
  | true => exact .same hbeq (if_pos hbeq)
  | false =>
    have hlt := FloatOrder.lt_of_le_of_beq_eq_false hle hbeq
    rcases hprevious with hprevious | rfl
    · rcases hcurrent with hcurrent | rfl
      · have hrelative := relative_of_isFinite hprevious hcurrent hlt
        cases hzero : previous == 0.0 with
        | true =>
          exact .unbounded hlt (.inr hzero)
            (hrelative.trans (abs_sub_div_abs_of_zero hzero hcurrent hbeq))
        | false => exact .ratio hlt hprevious hzero hrelative
      · exact absurd hle (infinity_not_le hprevious)
    · rcases hcurrent with hcurrent | rfl
      · exact .unbounded hlt (.inl rfl) (relative_infinity hcurrent)
      · cases hbeq

end

structure IsFalling (progression : List Float) : Prop where
  isScore : ∀ x ∈ progression, IsScore x
  falls : progression.Pairwise fun x y ↦ y ≤ x

variable {progression progression' : List Float} {i : ℕ} {improvement threshold : Float}

def IsAt (progression : List Float) (i : ℕ) (improvement : Float) : Prop :=
  ∃ previous current, progression[i - 1]? = some previous ∧ progression[i]? = some current ∧
    IsGain previous current improvement

theorem IsAt.of_prefix (h : IsAt progression' i improvement) (hgrown : progression <+: progression')
    (hi : i < progression.length) : IsAt progression i improvement := by
  obtain ⟨rest, rfl⟩ := hgrown
  rwa [IsAt, List.getElem?_append_left hi, List.getElem?_append_left (by omega)] at h

theorem IsAt.unique {improvement' : Float} (h : IsAt progression i improvement)
    (h' : IsAt progression i improvement') : improvement = improvement' := by
  obtain ⟨x, y, hx, hy, hgain⟩ := h
  obtain ⟨x', y', hx', hy', hgain'⟩ := h'
  obtain rfl : x = x' := Option.some.inj (hx.symm.trans hx')
  obtain rfl : y = y' := Option.some.inj (hy.symm.trans hy')
  exact hgain.unique hgain'

theorem IsFalling.isGain_relative (h : IsFalling progression) {x y : Float} (hi : 1 ≤ i)
    (hx : progression[i - 1]? = some x) (hy : progression[i]? = some y) :
    IsGain x y (relative x y) := by
  obtain ⟨hlt, rfl⟩ := List.getElem?_eq_some_iff.1 hx
  obtain ⟨hlt', rfl⟩ := List.getElem?_eq_some_iff.1 hy
  have hle := List.pairwise_iff_getElem.1 h.falls (i - 1) i hlt hlt' (by omega)
  exact Improvement.isGain_relative (h.isScore _ (List.getElem_mem _))
    (h.isScore _ (List.getElem_mem _)) hle

/-- Where the position is the last one, the gain is what early stopping looks at. -/
theorem IsFalling.below?_eq_some_iff (h : IsFalling progression) (hi : 1 ≤ i)
    (hlength : progression.length = i + 1) : below? threshold progression = some improvement ↔
      IsAt progression i improvement ∧ improvement < threshold := by
  have hlast : (progression.drop (i - 1)).length = 2 := by
    rw [List.length_drop]
    omega
  obtain ⟨x, y, hxy⟩ := List.length_eq_two.1 hlast
  obtain ⟨before, rfl⟩ : ∃ before, progression = before ++ [x, y] :=
    ⟨progression.take (i - 1), by rw [← hxy, List.take_append_drop]⟩
  have hbefore : i = before.length + 1 := by
    simp at hlength
    omega
  have hx : (before ++ [x, y])[i - 1]? = some x := by simp [hbefore]
  have hy : (before ++ [x, y])[i]? = some y := by simp [hbefore]
  have hgain := h.isGain_relative hi hx hy
  have hbelow : below? threshold (before ++ [x, y]) =
      if relative x y < threshold then some (relative x y) else none := by
    simp [below?]
  rw [hbelow]
  constructor
  · intro h
    split at h
    · next hlt =>
      cases h
      exact ⟨⟨x, y, hx, hy, hgain⟩, hlt⟩
    · cases h
  · rintro ⟨hat, hlt⟩
    obtain rfl := hat.unique ⟨x, y, hx, hy, hgain⟩
    exact if_pos hlt

end Improvement

end CovarianceSearch
