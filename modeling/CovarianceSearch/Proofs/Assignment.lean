import CovarianceSearch.Assignment
import Mathlib.Data.List.Basic

namespace CovarianceSearch.Assignment

variable {name : String} {value : Float} {f : String → Float}

theorem lookup_cons_eq_ite (n m : String) (v : Float) (rest : List (String × Float)) :
    ((m, v) :: rest).lookup n = if n = m then some v else rest.lookup n := by
  rw [List.lookup_cons]
  by_cases h : n = m
  · rw [if_pos h, beq_iff_eq.2 h]
  · rw [if_neg h, beq_eq_false_iff_ne.2 h]

theorem lookup_insertEntry (n : String) (entries : List (String × Float)) :
    (insertEntry name value entries).lookup n =
      if n = name then some value else entries.lookup n := by
  induction entries with
  | nil => exact lookup_cons_eq_ite n name value []
  | cons q rest ih =>
    obtain ⟨m, v⟩ := q
    unfold insertEntry
    by_cases hlt : name < m
    · rw [if_pos hlt, lookup_cons_eq_ite]
    · rw [if_neg hlt]
      by_cases hgt : m < name
      · have hne : m ≠ name := String.ne_of_lt hgt
        rw [if_pos hgt, lookup_cons_eq_ite, lookup_cons_eq_ite, ih]
        by_cases h : n = m
        · rw [if_pos h, if_neg (h ▸ hne), if_pos h]
        · rw [if_neg h, if_neg h]
      · obtain rfl : name = m := String.le_antisymm (String.not_lt.1 hgt) (String.not_lt.1 hlt)
        rw [if_neg hgt, lookup_cons_eq_ite, lookup_cons_eq_ite]
        by_cases h : n = name
        · rw [if_pos h, if_pos h]
        · rw [if_neg h, if_neg h, if_neg h]

theorem get?_insert (m : Assignment) (n : String) :
    (m.insert name value).get? n = if n = name then some value else m.get? n :=
  lookup_insertEntry n m.entries

theorem perm_insertEntry {entries : List (String × Float)} (h : name ∉ entries.map Prod.fst) :
    (insertEntry name value entries).Perm ((name, value) :: entries) := by
  induction entries with
  | nil => exact .refl _
  | cons q rest ih =>
    obtain ⟨n, v⟩ := q
    rw [List.map_cons, List.mem_cons, not_or] at h
    obtain ⟨hne, hrest⟩ := h
    unfold insertEntry
    split
    · exact .refl _
    · split
      · exact ((ih hrest).cons _).trans (.swap _ _ _)
      · next hle hge =>
        exact absurd (String.le_antisymm (String.not_lt.1 hge) (String.not_lt.1 hle)) hne

theorem perm_insert {m : Assignment} (h : name ∉ m.names) :
    (m.insert name value).entries.Perm ((name, value) :: m.entries) :=
  perm_insertEntry h

theorem perm_ofList {entries : List (String × Float)} (h : (entries.map Prod.fst).Nodup) :
    (ofList entries).entries.Perm entries := by
  have hfold (m : Assignment) (hm : ((m.entries ++ entries).map Prod.fst).Nodup) :
      (entries.foldl (fun m p ↦ m.insert p.1 p.2) m).entries.Perm (m.entries ++ entries) := by
    clear h
    induction entries generalizing m with
    | nil => rw [List.foldl_nil, List.append_nil]
    | cons p entries ih =>
      have hnew : p.1 ∉ m.names := by
        rw [List.map_append, List.nodup_append] at hm
        exact fun hmem ↦ hm.2.2 p.1 hmem p.1 List.mem_cons_self rfl
      have hentries : ((m.insert p.1 p.2).entries ++ entries).Perm (m.entries ++ p :: entries) :=
        ((perm_insert hnew).append_right entries).trans List.perm_middle.symm
      rw [List.foldl_cons]
      exact (ih _ ((hentries.map Prod.fst).nodup_iff.2 hm)).trans hentries
  exact hfold empty h

theorem isSome_get?_iff {m : Assignment} : (m.get? name).isSome = true ↔ name ∈ m.names := by
  simp [get?, names]

theorem mem_names_insert {m : Assignment} {n : String} :
    n ∈ (m.insert name value).names ↔ n = name ∨ n ∈ m.names := by
  rw [← isSome_get?_iff, ← isSome_get?_iff, get?_insert]
  by_cases h : n = name <;> simp [h]

theorem mem_names_ofList {entries : List (String × Float)} :
    name ∈ (ofList entries).names ↔ name ∈ entries.map Prod.fst := by
  have hfold (m : Assignment) : name ∈ (entries.foldl (fun m p ↦ m.insert p.1 p.2) m).names ↔
      name ∈ m.names ∨ name ∈ entries.map Prod.fst := by
    induction entries generalizing m with
    | nil => simp
    | cons p entries ih =>
      rw [List.foldl_cons, ih, mem_names_insert, List.map_cons, List.mem_cons]
      tauto
  rw [ofList, hfold]
  simp [names, empty]

/-- Where the value of an entry depends on its name only, it does not matter which one counts. -/
theorem get?_ofList {entries : List (String × Float)} (h : ∀ p ∈ entries, p.2 = f p.1)
    (hname : name ∈ entries.map Prod.fst) : (ofList entries).get? name = some (f name) := by
  have hfold (m : Assignment) (hm : name ∈ m.names → m.get? name = some (f name))
      (hmem : name ∈ m.names ∨ name ∈ entries.map Prod.fst) :
      (entries.foldl (fun m p ↦ m.insert p.1 p.2) m).get? name = some (f name) := by
    clear hname
    induction entries generalizing m with
    | nil => exact hm (by simpa using hmem)
    | cons p entries ih =>
      have hp := h p (by simp)
      rw [List.foldl_cons]
      apply ih (fun q hq ↦ h q (by simp [hq]))
      · intro hin
        rw [get?_insert]
        by_cases heq : name = p.1
        · rw [if_pos heq, hp, heq]
        · rw [if_neg heq]
          exact hm ((mem_names_insert.1 hin).resolve_left heq)
      · rw [mem_names_insert]
        rw [List.map_cons, List.mem_cons] at hmem
        tauto
  exact hfold empty (fun hin ↦ by simp [names, empty] at hin) (.inr hname)

theorem get?_ofList_map (change : String → Float → Float) (entries : List (String × Float))
    (n : String) : (ofList (entries.map fun q ↦ (q.1, change q.1 q.2))).get? n =
      ((ofList entries).get? n).map (change n) := by
  have hfold (m m' : Assignment) (hm : ∀ n, m'.get? n = (m.get? n).map (change n)) :
      ((entries.map fun q ↦ (q.1, change q.1 q.2)).foldl (fun m p ↦ m.insert p.1 p.2) m').get? n =
        ((entries.foldl (fun m p ↦ m.insert p.1 p.2) m).get? n).map (change n) := by
    induction entries generalizing m m' with
    | nil => exact hm n
    | cons q entries ih =>
      rw [List.map_cons, List.foldl_cons, List.foldl_cons]
      apply ih
      intro n'
      rw [get?_insert, get?_insert]
      by_cases h : n' = q.1
      · rw [if_pos h, if_pos h, h]
        rfl
      · rw [if_neg h, if_neg h, hm]
  exact hfold empty empty fun _ ↦ rfl

theorem pairwise_names (m : Assignment) : m.names.Pairwise (· < ·) :=
  List.pairwise_map.2 m.ordered

theorem le_of_find?_names {m : Assignment} {p : String → Bool}
    (h : m.names.find? p = some name) {n : String} (hn : n ∈ m.names) (hp : p n = true) :
    name ≤ n := by
  obtain ⟨-, before, after, hnames, hbefore⟩ := List.find?_eq_some_iff_append.1 h
  have hordered := m.pairwise_names
  rw [hnames] at hn hordered
  rcases List.mem_append.1 hn with hn | hn
  · have hnot := hbefore n hn
    rw [hp] at hnot
    cases hnot
  · rcases List.mem_cons.1 hn with rfl | hn
    · exact String.le_refl n
    · have hlt := (List.pairwise_cons.1 (List.pairwise_append.1 hordered).2.1).1 n hn
      exact String.not_lt.1 (String.lt_asymm hlt)

end CovarianceSearch.Assignment
