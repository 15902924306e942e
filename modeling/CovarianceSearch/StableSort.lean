namespace CovarianceSearch.StableSort

variable {α : Type}

/-- Puts `x` into a list whose greatest entry comes first, in front of all entries it is not less
than. -/
def insertDown (less : α → α → Bool) (x : α) : List α → List α
  | [] => [x]
  | y :: ys => if less x y then y :: insertDown less x ys else x :: y :: ys

/-- Insertion sort. Entries of which neither is less than the other keep their order. -/
def sort (less : α → α → Bool) (xs : List α) : List α :=
  (xs.foldl (fun sorted x ↦ insertDown less x sorted) []).reverse

variable (less : α → α → Bool)

theorem insertDown_perm (x : α) (ys : List α) : (insertDown less x ys).Perm (x :: ys) := by
  induction ys with
  | nil => exact .refl _
  | cons y ys ih =>
    unfold insertDown
    split
    · exact (ih.cons y).trans (.swap x y ys)
    · exact .refl _

theorem foldl_insertDown_perm (xs sorted : List α) :
    (xs.foldl (fun s x ↦ insertDown less x s) sorted).Perm (xs ++ sorted) := by
  induction xs generalizing sorted with
  | nil => exact .refl _
  | cons x xs ih =>
    exact (ih _).trans (((insertDown_perm less x sorted).append_left xs).trans
      List.perm_middle)

theorem sort_perm (xs : List α) : (sort less xs).Perm xs :=
  (List.reverse_perm _).trans (by simpa using foldl_insertDown_perm less xs [])

end CovarianceSearch.StableSort
