import CovarianceSearch.StableSort
import Mathlib.Data.List.Sort
import Mathlib.Data.Multiset.Sort

namespace CovarianceSearch.StableSort

variable {α β : Type} (less : α → α → Bool)

theorem insertDown_pairwise (R : α → α → Prop) (htrans : ∀ a b c, R a b → R b c → R a c)
    {x : α} {ys : List α} (hys : ys.Pairwise fun a b ↦ R b a)
    (hx : ∀ y ∈ ys, if less x y then R x y else R y x) :
    (insertDown less x ys).Pairwise fun a b ↦ R b a := by
  induction ys with
  | nil => simp [insertDown]
  | cons y ys ih =>
    obtain ⟨hy, hrest⟩ := List.pairwise_cons.1 hys
    have hxy := hx y (by simp)
    unfold insertDown
    split
    · next hless =>
      refine List.pairwise_cons.2 ⟨fun z hz ↦ ?_, ih hrest fun z hz ↦ hx z (by simp [hz])⟩
      rcases List.mem_cons.1 ((insertDown_perm less x ys).mem_iff.1 hz) with rfl | hz
      · simpa [hless] using hxy
      · exact hy z hz
    · next hless =>
      have hyx : R y x := by simpa [hless] using hxy
      refine List.pairwise_cons.2 ⟨fun z hz ↦ ?_, hys⟩
      rcases List.mem_cons.1 hz with rfl | hz
      · exact hyx
      · exact htrans z y _ (hy z hz) hyx

/-- Sorting puts a list in an order `R` if `R` has every entry behind the ones before it, except
where it is less. -/
theorem sort_pairwise (R : α → α → Prop) (htrans : ∀ a b c, R a b → R b c → R a c)
    {xs : List α} (hxs : xs.Pairwise fun y x ↦ if less x y then R x y else R y x) :
    (sort less xs).Pairwise R := by
  -- The entries so far are kept in reverse, and those to come are behind all of them.
  suffices ∀ sorted : List α, sorted.Pairwise (fun a b ↦ R b a) →
      (∀ y ∈ sorted, ∀ x ∈ xs, if less x y then R x y else R y x) →
      (xs.foldl (fun s x ↦ insertDown less x s) sorted).Pairwise fun a b ↦ R b a from
    List.pairwise_reverse.2 (this [] .nil (by simp))
  induction xs with
  | nil => exact fun sorted h _ ↦ h
  | cons x xs ih =>
    intro sorted hsorted hbefore
    obtain ⟨hx, hrest⟩ := List.pairwise_cons.1 hxs
    have hinserted : (insertDown less x sorted).Pairwise fun a b ↦ R b a :=
      insertDown_pairwise less R htrans hsorted fun y hy ↦ hbefore y hy x (by simp)
    refine ih hrest _ hinserted fun y hy z hz ↦ ?_
    rcases List.mem_cons.1 ((insertDown_perm less x sorted).mem_iff.1 hy) with rfl | hy
    · exact hx z hz
    · exact hbefore y hy z (by simp [hz])

theorem insertDown_map (f : β → α) (x : β) (ys : List β) :
    insertDown less (f x) (ys.map f) = (insertDown (fun a b ↦ less (f a) (f b)) x ys).map f := by
  induction ys with
  | nil => rfl
  | cons y ys ih =>
    simp only [List.map_cons, insertDown]
    split
    · rw [ih, List.map_cons]
    · rfl

theorem sort_map (f : β → α) (xs : List β) :
    sort less (xs.map f) = (sort (fun a b ↦ less (f a) (f b)) xs).map f := by
  suffices ∀ sorted : List β, (xs.map f).foldl (fun s x ↦ insertDown less x s) (sorted.map f) =
      (xs.foldl (fun s x ↦ insertDown (fun a b ↦ less (f a) (f b)) x s) sorted).map f by
    rw [sort, sort, List.map_reverse, ← this]
    rfl
  induction xs with
  | nil => exact fun sorted ↦ rfl
  | cons x xs ih =>
    intro sorted
    rw [List.map_cons, List.foldl_cons, List.foldl_cons, insertDown_map, ih]

/-- Entries that are ranked in a linear order are sorted by rank and then by position. -/
theorem exists_order_sort [LinearOrder β] (rank : α → β) {xs : List α}
    (hless : ∀ x ∈ xs, ∀ y ∈ xs, less x y = true ↔ rank x < rank y) :
    ∃ order : List (α × ℕ), order.Perm xs.zipIdx ∧ sort less xs = order.map Prod.fst ∧
      order.Pairwise fun p q ↦ rank p.1 < rank q.1 ∨ rank p.1 = rank q.1 ∧ p.2 < q.2 := by
  refine ⟨sort (fun p q ↦ less p.1 q.1) xs.zipIdx, sort_perm _ _, ?_, ?_⟩
  · rw [← sort_map less Prod.fst, List.zipIdx_map_fst]
  · refine sort_pairwise _ _ ?_ ?_
    · rintro p q r (hpq | ⟨hpq, hi⟩) (hqr | ⟨hqr, hj⟩)
      · exact .inl (hpq.trans hqr)
      · exact .inl (hqr ▸ hpq)
      · exact .inl (hpq ▸ hqr)
      · exact .inr ⟨hpq.trans hqr, hi.trans hj⟩
    · have hpositions : xs.zipIdx.Pairwise fun p q ↦ p.2 < q.2 :=
        List.pairwise_map.1 (by simpa [List.zipIdx_map_snd] using List.pairwise_lt_range')
      refine hpositions.imp_of_mem fun {p q} hp hq hlt ↦ ?_
      have hp := hless q.1 (List.fst_mem_of_mem_zipIdx hq) p.1 (List.fst_mem_of_mem_zipIdx hp)
      split
      · next h => exact .inl (hp.1 h)
      · next h =>
        rcases (not_lt.1 (mt hp.2 h)).lt_or_eq with h | h
        · exact .inl h
        · exact .inr ⟨h, hlt⟩

theorem sort_lt_eq [LinearOrder α] (xs : List α) :
    sort (fun a b ↦ decide (a < b)) xs = (xs : Multiset α).sort := by
  have hsorted : (sort (fun a b ↦ decide (a < b)) xs).Pairwise (· ≤ ·) := by
    refine sort_pairwise _ (· ≤ ·) (fun _ _ _ ↦ le_trans) (List.pairwise_of_forall fun y x ↦ ?_)
    split
    · next h => exact (of_decide_eq_true h).le
    · next h => exact not_lt.1 (by simpa using h)
  refine List.Perm.eq_of_pairwise' hsorted (Multiset.pairwise_sort _ _) ?_
  exact Multiset.coe_eq_coe.1 ((Multiset.coe_eq_coe.2 (sort_perm _ xs)).trans
    (Multiset.sort_eq _ _).symm)

end CovarianceSearch.StableSort
