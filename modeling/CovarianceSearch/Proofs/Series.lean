import Mathlib
import CovarianceSearch.Proofs.RealScalar
import CovarianceSearch.Series

namespace CovarianceSearch.Series

/-- Two series in step, point by point, with the same ratios between points. -/
structure IsRescaled (xs ys : List ℝ) : Prop where
  length_eq : ys.length = xs.length
  ratio_eq : ∀ p ∈ xs.zip ys, ∀ q ∈ xs.zip ys, p.2 / q.2 = p.1 / q.1

/-- The points of `ys` come in the order of those of `xs`, the last of them at the bound. Where no
point of `xs` lies before the origin, none of `ys` does. -/
structure KeepsAxis (xs : List ℝ) (bound : ℝ) (ys : List ℝ) : Prop extends IsRescaled xs ys where
  order : ∀ p ∈ xs.zip ys, ∀ q ∈ xs.zip ys, p.1 ≤ q.1 → p.2 ≤ q.2
  greatest : IsGreatest {y | y ∈ ys} bound
  within : (∀ x ∈ xs, 0 ≤ x) → ∀ y ∈ ys, y ∈ Set.Icc 0 bound

/-- The points of `ys` come in the opposite order, the first of them at the bound. -/
structure ReversesAxis (xs : List ℝ) (bound : ℝ) (ys : List ℝ) : Prop
    extends IsRescaled xs ys where
  order : ∀ p ∈ xs.zip ys, ∀ q ∈ xs.zip ys, p.1 ≤ q.1 → q.2 ≤ p.2
  least : IsLeast {y | y ∈ ys} bound

variable {xs ys : List ℝ} {bound greatest c : ℝ}

theorem isGreatest_foldl (x : ℝ) (rest : List ℝ) : IsGreatest {y | y ∈ x :: rest}
    (rest.foldl (fun greatest y ↦ if greatest < y then y else greatest) x) := by
  induction rest using List.reverseRecOn with
  | nil => simp
  | append_singleton rest y ih =>
    have hmem : {z | z ∈ x :: (rest ++ [y])} = insert y {z | z ∈ x :: rest} := by
      ext z
      simp only [List.mem_cons, List.mem_append, Set.mem_ofPred_eq, Set.mem_insert_iff]
      tauto
    rw [List.foldl_append, List.foldl_cons, List.foldl_nil, hmem, ← max_def_lt, max_comm]
    exact ih.insert y

theorem maximum?_eq_some_iff : maximum? xs = some greatest ↔ IsGreatest {x | x ∈ xs} greatest := by
  have hnumbers : (xs.filter fun x ↦ !Scalar.isNaN x) = xs :=
    List.filter_eq_self.2 fun _ _ ↦ rfl
  rw [maximum?, hnumbers]
  cases xs with
  | nil => simp [IsGreatest]
  | cons x rest =>
    have hgreatest := isGreatest_foldl x rest
    constructor
    · intro h
      rw [← Option.some.inj h]
      exact hgreatest
    · intro h
      exact congrArg some (hgreatest.unique h)

theorem exists_isGreatest (hne : xs ≠ []) : ∃ greatest, IsGreatest {x | x ∈ xs} greatest := by
  cases xs with
  | nil => exact absurd rfl hne
  | cons x rest => exact ⟨_, isGreatest_foldl x rest⟩

theorem rescale?_eq_ite (hbound : 0 < bound) (hgreatest : IsGreatest {x | x ∈ xs} greatest) :
    rescale? xs bound = if greatest ≠ 0 then some (xs.map (bound / greatest * ·)) else none := by
  have hne : xs ≠ [] := List.ne_nil_of_mem hgreatest.1
  rw [rescale?, if_neg (by simpa using ⟨hne, hbound⟩), maximum?_eq_some_iff.2 hgreatest]
  change (if greatest < (Scalar.zero : ℝ) ∨ (Scalar.zero : ℝ) < greatest then
    some (xs.map fun x ↦ bound * x / greatest) else none) = _
  simp only [Scalar.zero_real, lt_or_lt_iff_ne, mul_div_right_comm]

theorem rescale?_eq_some_iff : rescale? xs bound = some ys ↔ 0 < bound ∧
    ∃ greatest, IsGreatest {x | x ∈ xs} greatest ∧ greatest ≠ 0 ∧
      ys = xs.map (bound / greatest * ·) := by
  by_cases hscaled : xs ≠ [] ∧ 0 < bound
  · obtain ⟨hne, hbound⟩ := hscaled
    obtain ⟨greatest, hgreatest⟩ := exists_isGreatest hne
    rw [rescale?_eq_ite hbound hgreatest]
    constructor
    · intro h
      split at h
      · next hzero => exact ⟨hbound, greatest, hgreatest, hzero, (Option.some.inj h).symm⟩
      · cases h
    · rintro ⟨-, greatest', hgreatest', hzero, rfl⟩
      obtain rfl := hgreatest.unique hgreatest'
      exact if_pos hzero
  · rw [rescale?, if_pos (by simpa [or_iff_not_imp_left] using hscaled)]
    constructor
    · intro h
      cases h
    · rintro ⟨hbound, greatest, hgreatest, -⟩
      exact absurd ⟨List.ne_nil_of_mem hgreatest.1, hbound⟩ hscaled

theorem forall_mem_zip_map_iff {f : ℝ → ℝ} {R : ℝ × ℝ → ℝ × ℝ → Prop} :
    (∀ p ∈ xs.zip (xs.map f), ∀ q ∈ xs.zip (xs.map f), R p q) ↔
      ∀ x ∈ xs, ∀ x' ∈ xs, R (x, f x) (x', f x') := by
  have hzip : xs.zip (xs.map f) = xs.map fun x ↦ (x, f x) := by
    rw [← List.zip_map', List.map_id']
  rw [hzip]
  simp only [List.forall_mem_map]

theorem isRescaled_map (hc : c ≠ 0) (xs : List ℝ) : IsRescaled xs (xs.map (c * ·)) :=
  ⟨List.length_map _, forall_mem_zip_map_iff.2 fun x _ x' _ ↦ mul_div_mul_left x x' hc⟩

theorem mem_map_of_isGreatest (hgreatest : IsGreatest {x | x ∈ xs} greatest) (hne : greatest ≠ 0) :
    bound ∈ xs.map (bound / greatest * ·) :=
  List.mem_map.2 ⟨greatest, hgreatest.1, div_mul_cancel₀ bound hne⟩

section

variable (hbound : 0 < bound) (hgreatest : IsGreatest {x | x ∈ xs} greatest)

include hbound hgreatest

/-- The order of the points decides on everything else. -/
theorem keepsAxis_map_iff (hne : greatest ≠ 0) :
    KeepsAxis xs bound (xs.map (bound / greatest * ·)) ↔
      ∀ x ∈ xs, ∀ x' ∈ xs, x ≤ x' → bound / greatest * x ≤ bound / greatest * x' := by
  constructor
  · intro h
    exact forall_mem_zip_map_iff.1 h.order
  · intro h
    have hupper : ∀ y ∈ xs.map (bound / greatest * ·), y ≤ bound := by
      intro y hy
      obtain ⟨x, hx, rfl⟩ := List.mem_map.1 hy
      have hle := h x hx greatest hgreatest.1 (hgreatest.2 hx)
      rwa [div_mul_cancel₀ bound hne] at hle
    refine ⟨isRescaled_map (div_ne_zero hbound.ne' hne) xs, forall_mem_zip_map_iff.2 h,
      ⟨mem_map_of_isGreatest hgreatest hne, hupper⟩, fun hnonneg y hy ↦ ⟨?_, hupper y hy⟩⟩
    obtain ⟨x, hx, rfl⟩ := List.mem_map.1 hy
    exact mul_nonneg (div_nonneg hbound.le (hnonneg greatest hgreatest.1)) (hnonneg x hx)

theorem reversesAxis_map (hneg : greatest < 0) :
    ReversesAxis xs bound (xs.map (bound / greatest * ·)) := by
  have hscale : bound / greatest < 0 := div_neg_of_pos_of_neg hbound hneg
  have hreverse {x x' : ℝ} (h : x ≤ x') : bound / greatest * x' ≤ bound / greatest * x :=
    mul_le_mul_of_nonpos_left h hscale.le
  refine ⟨isRescaled_map hscale.ne xs, forall_mem_zip_map_iff.2 fun x _ x' _ ↦ hreverse,
    mem_map_of_isGreatest hgreatest hneg.ne, fun y hy ↦ ?_⟩
  obtain ⟨x, hx, rfl⟩ := List.mem_map.1 hy
  have hle := hreverse (hgreatest.2 hx)
  rwa [div_mul_cancel₀ bound hneg.ne] at hle

theorem keepsAxis_map_iff_pos_or_eq (hne : greatest ≠ 0) :
    KeepsAxis xs bound (xs.map (bound / greatest * ·)) ↔
      0 < greatest ∨ ∀ x ∈ xs, ∀ x' ∈ xs, x = x' := by
  rw [keepsAxis_map_iff hbound hgreatest hne]
  constructor
  · intro h
    refine or_iff_not_imp_left.2 fun hpos x hx x' hx' ↦ ?_
    have hneg : greatest < 0 := lt_of_le_of_ne (not_lt.1 hpos) hne
    have hscale : bound / greatest < 0 := div_neg_of_pos_of_neg hbound hneg
    have heq {x x' : ℝ} (hx : x ∈ xs) (hx' : x' ∈ xs) (hle : x ≤ x') : x = x' :=
      hle.antisymm ((mul_le_mul_left_of_neg hscale).1 (h x hx x' hx' hle))
    rcases le_total x x' with hle | hle
    · exact heq hx hx' hle
    · exact (heq hx' hx hle).symm
  · rintro (hpos | heq) x hx x' hx' hle
    · exact mul_le_mul_of_nonneg_left hle (div_nonneg hbound.le hpos.le)
    · rw [heq x hx x' hx']

end

/-- Rescaling succeeds for a positive bound and a series whose greatest number is not zero. It keeps
the ratios between points, and it keeps the axis exactly where some point lies behind the origin or
all points are the same. A series before the origin is turned around, with its last point at the
bound and all others beyond it. -/
theorem rescale?_keeps_axis_iff (xs : List ℝ) (bound : ℝ) :
    ((∃ ys, rescale? xs bound = some ys) ↔
      0 < bound ∧ ∃ greatest, IsGreatest {x | x ∈ xs} greatest ∧ greatest ≠ 0) ∧
    ∀ ys, rescale? xs bound = some ys → IsRescaled xs ys ∧
      (KeepsAxis xs bound ys ↔ (∃ x ∈ xs, 0 < x) ∨ ∀ x ∈ xs, ∀ x' ∈ xs, x = x') ∧
      ((∀ x ∈ xs, x < 0) → ReversesAxis xs bound ys) := by
  refine ⟨⟨?_, ?_⟩, fun ys hys ↦ ?_⟩
  · rintro ⟨ys, hys⟩
    obtain ⟨hbound, greatest, hgreatest, hne, -⟩ := rescale?_eq_some_iff.1 hys
    exact ⟨hbound, greatest, hgreatest, hne⟩
  · rintro ⟨hbound, greatest, hgreatest, hne⟩
    exact ⟨_, rescale?_eq_some_iff.2 ⟨hbound, greatest, hgreatest, hne, rfl⟩⟩
  · obtain ⟨hbound, greatest, hgreatest, hne, rfl⟩ := rescale?_eq_some_iff.1 hys
    have hpos : (∃ x ∈ xs, 0 < x) ↔ 0 < greatest := by
      constructor
      · rintro ⟨x, hx, hpos⟩
        exact hpos.trans_le (hgreatest.2 hx)
      · intro hpos
        exact ⟨greatest, hgreatest.1, hpos⟩
    refine ⟨isRescaled_map (div_ne_zero hbound.ne' hne) xs, ?_, fun hneg ↦ ?_⟩
    · rw [hpos]
      exact keepsAxis_map_iff_pos_or_eq hbound hgreatest hne
    · exact reversesAxis_map hbound hgreatest (hneg greatest hgreatest.1)

theorem rescale?_keeps_axis_iff_past :
    rescale? [-2, -1] (1 : ℝ) = some [2, 1] ∧ ¬ KeepsAxis [-2, -1] 1 [2, 1] ∧
      ReversesAxis [-2, -1] 1 [2, 1] := by
  have hgreatest : IsGreatest {x : ℝ | x ∈ [-2, -1]} (-1) := by
    constructor
    · simp
    · intro x hx
      rcases List.mem_pair.1 hx with rfl | rfl <;> norm_num
  have hys : rescale? [-2, -1] (1 : ℝ) = some [2, 1] :=
    rescale?_eq_some_iff.2 ⟨one_pos, -1, hgreatest, by norm_num, by norm_num⟩
  obtain ⟨-, hkeeps, hreverses⟩ := (rescale?_keeps_axis_iff [-2, -1] 1).2 _ hys
  refine ⟨hys, fun h ↦ ?_, hreverses (by norm_num)⟩
  rcases hkeeps.1 h with ⟨x, hx, hpos⟩ | heq
  · rcases List.mem_pair.1 hx with rfl | rfl <;> norm_num at hpos
  · have hpair : (-2 : ℝ) = -1 := heq (-2) (by simp) (-1) (by simp)
    norm_num at hpair

end CovarianceSearch.Series
