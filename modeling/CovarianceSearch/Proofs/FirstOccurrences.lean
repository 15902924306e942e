import Mathlib.Data.List.Nodup

namespace CovarianceSearch

section

variable {α κ : Type} [DecidableEq κ] (key : α → κ)

/-- The entries whose keys are neither known nor keys of entries before them. -/
def firstOccurrences (known : List κ) (xs : List α) : List α :=
  (xs.zipIdx.filter fun (x, i) ↦ key x ∉ known ∧ key x ∉ (xs.take i).map key).map Prod.fst

@[simp] theorem firstOccurrences_nil (known : List κ) : firstOccurrences key known [] = [] := rfl

theorem firstOccurrences_congr {known known' : List κ} (h : ∀ k, k ∈ known ↔ k ∈ known')
    (xs : List α) : firstOccurrences key known xs = firstOccurrences key known' xs := by
  simp only [firstOccurrences, h]

theorem firstOccurrences_cons (known : List κ) (x : α) (xs : List α) :
    firstOccurrences key known (x :: xs) =
      if key x ∈ known then firstOccurrences key known xs
      else x :: firstOccurrences key (key x :: known) xs := by
  have htail : ((xs.zipIdx 1).filter fun (y, i) ↦
      key y ∉ known ∧ key y ∉ ((x :: xs).take i).map key).map Prod.fst =
        (xs.zipIdx.filter fun (y, i) ↦
          key y ∉ known ∧ key y ≠ key x ∧ key y ∉ (xs.take i).map key).map Prod.fst := by
    rw [List.zipIdx_succ, List.filter_map, List.map_map]
    simp only [Function.comp_def, List.take_succ_cons, List.map_cons, List.mem_cons, not_or,
      ne_eq]
  rw [firstOccurrences, List.zipIdx_cons, List.filter_cons]
  by_cases hx : key x ∈ known
  · rw [if_neg (by simp [hx]), if_pos hx, htail]
    refine congrArg _ (List.filter_congr fun p _ ↦ decide_eq_decide.2 (and_congr_right fun hp ↦ ?_))
    exact and_iff_right fun he ↦ hp (he ▸ hx)
  · rw [if_pos (by simp [hx]), if_neg hx, List.map_cons, htail]
    refine congrArg (x :: ·) (congrArg _ (List.filter_congr fun p _ ↦ decide_eq_decide.2 ?_))
    rw [List.mem_cons, not_or, and_left_comm, and_assoc]

variable {key} {known : List κ} {xs : List α} {x : α}

theorem mem_of_mem_firstOccurrences (h : x ∈ firstOccurrences key known xs) : x ∈ xs := by
  obtain ⟨p, hp, rfl⟩ := List.mem_map.1 h
  exact List.fst_mem_of_mem_zipIdx (List.mem_of_mem_filter hp)

theorem not_mem_of_mem_firstOccurrences (h : x ∈ firstOccurrences key known xs) :
    key x ∉ known := by
  obtain ⟨p, hp, rfl⟩ := List.mem_map.1 h
  exact (of_decide_eq_true (List.mem_filter.1 hp).2).1

variable (key known xs)

theorem nodup_map_firstOccurrences : ((firstOccurrences key known xs).map key).Nodup := by
  induction xs generalizing known with
  | nil => simp
  | cons x xs ih =>
    rw [firstOccurrences_cons]
    split
    · exact ih known
    · rw [List.map_cons]
      refine List.nodup_cons.2 ⟨fun h ↦ ?_, ih (key x :: known)⟩
      obtain ⟨y, hy, he⟩ := List.mem_map.1 h
      exact not_mem_of_mem_firstOccurrences hy (by simp [he])

variable {key known xs}

theorem mem_firstOccurrences_append (h : x ∈ firstOccurrences key known xs) (ys : List α) :
    x ∈ firstOccurrences key known (xs ++ ys) := by
  induction xs generalizing known with
  | nil => cases h
  | cons y xs ih =>
    rw [firstOccurrences_cons] at h
    rw [List.cons_append, firstOccurrences_cons]
    by_cases hy : key y ∈ known
    · rw [if_pos hy] at h ⊢
      exact ih h
    · rw [if_neg hy] at h ⊢
      rcases List.mem_cons.1 h with rfl | h
      · exact List.mem_cons_self
      · exact List.mem_cons_of_mem _ (ih h)

theorem mem_or_mem_map_firstOccurrences (h : x ∈ xs) :
    key x ∈ known ∨ key x ∈ (firstOccurrences key known xs).map key := by
  induction xs generalizing known with
  | nil => cases h
  | cons y xs ih =>
    rw [firstOccurrences_cons]
    by_cases hy : key y ∈ known
    · rw [if_pos hy]
      rcases List.mem_cons.1 h with rfl | h
      · exact .inl hy
      · exact ih h
    · rw [if_neg hy, List.map_cons]
      rcases List.mem_cons.1 h with rfl | h
      · exact .inr List.mem_cons_self
      · rcases @ih (key y :: known) h with h | h
        · rcases List.mem_cons.1 h with he | h
          · exact .inr (by simp [he])
          · exact .inl h
        · exact .inr (List.mem_cons_of_mem _ h)

end

end CovarianceSearch
