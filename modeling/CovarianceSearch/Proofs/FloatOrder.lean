import Mathlib

namespace CovarianceSearch.FloatOrder

open Float.Model UnpackedFloat

/-- The place of a float among all floats: its sign and kind come first, then its exponent and its
mantissa. Both zeros have the same place. -/
def unpackedPlace : UnpackedFloat → ℤ ×ₗ ℤ ×ₗ ℤ
  | .notANumber => toLex (0, toLex (0, 0))
  | .infinity .positive => toLex (2, toLex (0, 0))
  | .infinity .negative => toLex (-2, toLex (0, 0))
  | .zero _ => toLex (0, toLex (0, 0))
  | .finite .positive m e _ => toLex (1, toLex (e, m))
  | .finite .negative m e _ => toLex (-1, toLex (-e, -m))

def place (x : Float) : ℤ ×ₗ ℤ ×ₗ ℤ := unpackedPlace x.toModel.unpack

theorem then_eq_lt_iff (e e' : ℤ) (m m' : ℕ) :
    (compare e e').then (compare m m') = .lt ↔ e < e' ∨ e = e' ∧ m < m' := by
  rw [Ordering.then_eq_lt, compare_lt_iff_lt, compare_eq_iff_eq, compare_lt_iff_lt]

theorem then_eq_gt_iff (e e' : ℤ) (m m' : ℕ) :
    (compare e e').then (compare m m') = .gt ↔ e' < e ∨ e = e' ∧ m' < m := by
  rw [Ordering.then_eq_gt, compare_gt_iff_gt, compare_eq_iff_eq, compare_gt_iff_gt]

theorem lt_iff_unpackedPlace_lt {a b : UnpackedFloat} (ha : a.isNaN = false)
    (hb : b.isNaN = false) : a.lt b = true ↔ unpackedPlace a < unpackedPlace b := by
  rw [UnpackedFloat.lt, beq_iff_eq]
  -- Only two finite floats of the same sign get beyond the first component.
  cases a with
  | notANumber => cases ha
  | infinity s =>
    cases b with
    | notANumber => cases hb
    | infinity s' => cases s <;> cases s' <;> decide
    | zero s' => cases s <;> cases s' <;> decide
    | finite s' m e hm =>
      cases s <;> cases s' <;>
        simp [UnpackedFloat.compare, unpackedPlace, Prod.Lex.toLex_lt_toLex]
  | zero s =>
    cases b with
    | notANumber => cases hb
    | infinity s' => cases s <;> cases s' <;> decide
    | zero s' => cases s <;> cases s' <;> decide
    | finite s' m e hm =>
      cases s' <;> simp [UnpackedFloat.compare, unpackedPlace, Prod.Lex.toLex_lt_toLex]
  | finite s m e hm =>
    cases b with
    | notANumber => cases hb
    | infinity s' =>
      cases s <;> cases s' <;>
        simp [UnpackedFloat.compare, unpackedPlace, Prod.Lex.toLex_lt_toLex]
    | zero s' => cases s <;> simp [UnpackedFloat.compare, unpackedPlace, Prod.Lex.toLex_lt_toLex]
    | finite s' m' e' hm' =>
      cases s <;> cases s' <;>
        simp [UnpackedFloat.compare, unpackedPlace, Prod.Lex.toLex_lt_toLex, then_eq_lt_iff,
          then_eq_gt_iff]

theorem lt_iff_unpack_lt {x y : Float} : x < y ↔ x.toModel.unpack.lt y.toModel.unpack = true := by
  change Float.lt x y = true ↔ _
  rw [Float.lt, decide_eq_true_iff]
  rfl

/-- Among numbers, floats are compared by their places. -/
theorem lt_iff_place_lt {x y : Float} (hx : x.isNaN = false) (hy : y.isNaN = false) :
    x < y ↔ place x < place y :=
  lt_iff_unpack_lt.trans (lt_iff_unpackedPlace_lt hx hy)

theorem isNaN_of_isFinite {x : Float} (h : x.isFinite = true) : x.isNaN = false := by
  have hunpacked : x.toModel.unpack.isFinite = true := h
  change x.toModel.unpack.isNaN = false
  cases hx : x.toModel.unpack with
  | notANumber => rw [hx] at hunpacked; cases hunpacked
  | infinity s => rfl
  | zero s => rfl
  | finite s m e hm => rfl

theorem swap_compare (e e' : ℤ) (m m' : ℕ) :
    ((compare e e').then (compare m m')).swap = (compare e' e).then (compare m' m) := by
  rw [Ordering.swap_then, Int.compare_swap, Nat.compare_swap]

theorem exists_compare {a b : UnpackedFloat} (ha : a.isNaN = false) (hb : b.isNaN = false) :
    ∃ o, a.compare b = some o ∧ b.compare a = some o.swap := by
  cases a with
  | notANumber => cases ha
  | infinity s =>
    cases b with
    | notANumber => cases hb
    | infinity s' => cases s <;> cases s' <;> exact ⟨_, rfl, rfl⟩
    | zero s' => cases s <;> exact ⟨_, rfl, rfl⟩
    | finite s' m e hm => cases s <;> exact ⟨_, rfl, rfl⟩
  | zero s =>
    cases b with
    | notANumber => cases hb
    | infinity s' => cases s' <;> exact ⟨_, rfl, rfl⟩
    | zero s' => exact ⟨_, rfl, rfl⟩
    | finite s' m e hm => cases s' <;> exact ⟨_, rfl, rfl⟩
  | finite s m e hm =>
    cases b with
    | notANumber => cases hb
    | infinity s' => cases s' <;> exact ⟨_, rfl, rfl⟩
    | zero s' => cases s <;> exact ⟨_, rfl, rfl⟩
    | finite s' m' e' hm' =>
      cases s <;> cases s' <;> simp [UnpackedFloat.compare, swap_compare]

theorem le_iff_unpack_le {x y : Float} : x ≤ y ↔ x.toModel.unpack.le y.toModel.unpack = true := by
  change Float.le x y = true ↔ _
  rw [Float.le, decide_eq_true_iff]
  rfl

theorem le_iff_place_le {x y : Float} (hx : x.isNaN = false) (hy : y.isNaN = false) :
    x ≤ y ↔ place x ≤ place y := by
  obtain ⟨o, hxy, hyx⟩ := exists_compare (a := x.toModel.unpack) (b := y.toModel.unpack) hx hy
  rw [le_iff_unpack_le, place, place, ← not_lt, ← lt_iff_unpackedPlace_lt hy hx,
    UnpackedFloat.le, UnpackedFloat.lt, hxy, hyx]
  cases o <;> decide

theorem isNaN_of_compare {a b : UnpackedFloat} {o : Ordering} (h : a.compare b = some o) :
    a.isNaN = false ∧ b.isNaN = false := by
  constructor
  · cases a with
    | notANumber => cases h
    | _ => rfl
  · cases b with
    | notANumber => cases a <;> cases h
    | _ => rfl

theorem isNaN_of_lt {x y : Float} (h : x < y) : x.isNaN = false ∧ y.isNaN = false := by
  have hlt := lt_iff_unpack_lt.1 h
  rw [UnpackedFloat.lt, beq_iff_eq] at hlt
  exact isNaN_of_compare hlt

theorem isNaN_of_le {x y : Float} (h : x ≤ y) : x.isNaN = false ∧ y.isNaN = false := by
  have hle := le_iff_unpack_le.1 h
  rw [UnpackedFloat.le, Option.any_eq_true] at hle
  obtain ⟨o, ho, -⟩ := hle
  exact isNaN_of_compare ho

theorem le_refl {x : Float} (hx : x.isNaN = false) : x ≤ x :=
  (le_iff_place_le hx hx).2 le_rfl

theorem le_of_lt {x y : Float} (h : x < y) : x ≤ y := by
  obtain ⟨hx, hy⟩ := isNaN_of_lt h
  exact (le_iff_place_le hx hy).2 ((lt_iff_place_lt hx hy).1 h).le

theorem le_of_not_lt {x y : Float} (hx : x.isNaN = false) (hy : y.isNaN = false)
    (h : ¬ y < x) : x ≤ y := by
  rw [lt_iff_place_lt hy hx, not_lt] at h
  exact (le_iff_place_le hx hy).2 h

theorem not_lt_of_lt {x y : Float} (h : x < y) : ¬ y < x := by
  obtain ⟨hx, hy⟩ := isNaN_of_lt h
  rw [lt_iff_place_lt hy hx]
  exact ((lt_iff_place_lt hx hy).1 h).asymm

theorem beq_iff_unpack_beq {x y : Float} :
    (x == y) = true ↔ x.toModel.unpack.beq y.toModel.unpack = true := Iff.rfl

theorem beq_eq_false_of_lt {x y : Float} (h : y < x) : (x == y) = false := by
  obtain ⟨hy, hx⟩ := isNaN_of_lt h
  obtain ⟨o, hxy, hyx⟩ := exists_compare (a := x.toModel.unpack) (b := y.toModel.unpack) hx hy
  have hlt := lt_iff_unpack_lt.1 h
  rw [UnpackedFloat.lt, hyx, beq_iff_eq, Option.some_inj] at hlt
  rw [Bool.eq_false_iff, ne_eq, beq_iff_unpack_beq, UnpackedFloat.beq, hxy, beq_iff_eq,
    Option.some_inj]
  rintro rfl
  cases hlt

theorem lt_of_le_of_beq_eq_false {x y : Float} (h : y ≤ x) (hne : (x == y) = false) : y < x := by
  obtain ⟨hy, hx⟩ := isNaN_of_le h
  obtain ⟨o, hxy, hyx⟩ := exists_compare (a := x.toModel.unpack) (b := y.toModel.unpack) hx hy
  have hle := le_iff_unpack_le.1 h
  rw [Bool.eq_false_iff, ne_eq, beq_iff_unpack_beq, UnpackedFloat.beq, hxy] at hne
  rw [UnpackedFloat.le, hyx] at hle
  rw [lt_iff_unpack_lt, UnpackedFloat.lt, hyx]
  cases o with
  | lt => cases hle
  | eq => exact absurd rfl hne
  | gt => rfl

theorem le_trans {x y z : Float} (hxy : x ≤ y) (hyz : y ≤ z) : x ≤ z := by
  obtain ⟨hx, hy⟩ := isNaN_of_le hxy
  obtain ⟨-, hz⟩ := isNaN_of_le hyz
  rw [le_iff_place_le hx hz]
  exact ((le_iff_place_le hx hy).1 hxy).trans ((le_iff_place_le hy hz).1 hyz)

theorem lt_trans {x y z : Float} (hxy : x < y) (hyz : y < z) : x < z := by
  obtain ⟨hx, hy⟩ := isNaN_of_lt hxy
  obtain ⟨-, hz⟩ := isNaN_of_lt hyz
  rw [lt_iff_place_lt hx hz]
  exact ((lt_iff_place_lt hx hy).1 hxy).trans ((lt_iff_place_lt hy hz).1 hyz)

theorem lt_of_lt_of_le {x y z : Float} (hxy : x < y) (hyz : y ≤ z) : x < z := by
  obtain ⟨hx, hy⟩ := isNaN_of_lt hxy
  obtain ⟨-, hz⟩ := isNaN_of_le hyz
  rw [lt_iff_place_lt hx hz]
  exact ((lt_iff_place_lt hx hy).1 hxy).trans_le ((le_iff_place_le hy hz).1 hyz)

theorem lt_of_le_of_lt {x y z : Float} (hxy : x ≤ y) (hyz : y < z) : x < z := by
  obtain ⟨hx, hy⟩ := isNaN_of_le hxy
  obtain ⟨-, hz⟩ := isNaN_of_lt hyz
  rw [lt_iff_place_lt hx hz]
  exact ((le_iff_place_le hx hy).1 hxy).trans_lt ((lt_iff_place_lt hy hz).1 hyz)

theorem unpackedPlace_le (a : UnpackedFloat) :
    unpackedPlace a ≤ unpackedPlace (.infinity .positive) := by
  cases a with
  | notANumber => decide
  | infinity s => cases s <;> decide
  | zero s => cases s <;> decide
  | finite s m e hm => cases s <;> simp [unpackedPlace, Prod.Lex.toLex_le_toLex]

end CovarianceSearch.FloatOrder
