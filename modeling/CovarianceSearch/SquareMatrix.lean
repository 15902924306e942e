namespace CovarianceSearch

/-- A square matrix, its entries kept row after row. -/
structure SquareMatrix (R : Type) (n : Nat) where
  entries : Vector R (n * n)

namespace SquareMatrix

variable {R : Type} {n : Nat}

def position (i j : Fin n) : Fin (n * n) where
  val := i * n + j
  isLt := by
    have hrow : (i + 1) * n ≤ n * n := Nat.mul_le_mul_right n i.isLt
    have hcolumn := j.isLt
    rw [Nat.add_mul] at hrow
    omega

def entry (a : SquareMatrix R n) (i j : Fin n) : R := a.entries[position i j]

def put (a : SquareMatrix R n) (i j : Fin n) (v : R) : SquareMatrix R n :=
  ⟨a.entries.set (position i j) v⟩

theorem position_inj {i j r c : Fin n} : position r c = position i j ↔ r = i ∧ c = j := by
  constructor
  · intro h
    have hval : r * n + c = i * n + j := congrArg Fin.val h
    have hn : 0 < n := Nat.lt_of_le_of_lt (Nat.zero_le _) i.isLt
    have hrow := congrArg (· / n) hval
    have hcolumn := congrArg (· % n) hval
    simp only [Nat.mul_comm _ n, Nat.mul_add_div hn, Nat.mul_add_mod,
      Nat.div_eq_of_lt c.isLt, Nat.div_eq_of_lt j.isLt, Nat.mod_eq_of_lt c.isLt,
      Nat.mod_eq_of_lt j.isLt, Nat.add_zero] at hrow hcolumn
    exact ⟨Fin.ext hrow, Fin.ext hcolumn⟩
  · rintro ⟨rfl, rfl⟩
    rfl

theorem entry_put (a : SquareMatrix R n) (i j : Fin n) (v : R) (r c : Fin n) :
    (a.put i j v).entry r c = if r = i ∧ c = j then v else a.entry r c := by
  simp only [entry, put, Fin.getElem_fin, Vector.getElem_set, Fin.val_inj, position_inj, eq_comm]

def before (i : Fin n) : List (Fin n) := (List.finRange n).take i

def behind (i : Fin n) : List (Fin n) := (List.finRange n).drop (i + 1)

end SquareMatrix

end CovarianceSearch
