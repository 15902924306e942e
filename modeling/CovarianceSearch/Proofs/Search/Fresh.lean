import CovarianceSearch.Proofs.FirstOccurrences
import CovarianceSearch.Proofs.Grammar
import CovarianceSearch.Proofs.KernelTree.Key
import CovarianceSearch.Proofs.Table
import CovarianceSearch.Search

namespace CovarianceSearch

def Candidate.key (c : Candidate) : Except NodeFault String := c.tree.simplify.text

/-- An entry keeps a candidate: its simplified tree under the candidate's key, and its
expression. -/
structure Entry.Keeps (e : Entry) (c : Candidate) : Prop where
  key : c.key = .ok e.key
  tree : e.tree = c.tree.simplify
  expression : e.expression = c.expression

structure Entry.IsNew (depth : Nat) (c : Candidate) (e : Entry) : Prop extends e.Keeps c where
  depth_eq : e.depth = depth
  unscored : e.evaluated = false

namespace Search

variable {depth : Nat} {table : Table} {seen : List String} {cs : List Candidate}
  {fresh : List Entry}

def knownKeys (table : Table) (seen : List String) : List (Except NodeFault String) :=
  (table.keys ++ seen).map .ok

theorem mem_knownKeys {key : String} :
    .ok key ∈ knownKeys table seen ↔ table.contains key = true ∨ key ∈ seen := by
  rw [knownKeys, List.mem_map_of_injective fun _ _ ↦ Except.ok.inj, List.mem_append,
    Table.contains_iff]

theorem mem_knownKeys_cons (table : Table) (seen : List String) (key : String)
    (k : Except NodeFault String) :
    k ∈ knownKeys table (key :: seen) ↔ k ∈ .ok key :: knownKeys table seen := by
  simp [knownKeys, or_left_comm, eq_comm]

/-- The entries made are new entries for the first occurrences of unknown keys. -/
theorem forall₂_of_freshEntries (h : freshEntries depth table seen cs = .ok fresh) :
    List.Forall₂ (Entry.IsNew depth)
      (firstOccurrences Candidate.key (knownKeys table seen) cs) fresh := by
  -- Keys of new entries are known from there on, so the induction is over all of `seen`.
  induction cs generalizing seen fresh with
  | nil =>
    cases h
    exact .nil
  | cons c cs ih =>
    obtain ⟨key, hkey, h⟩ := Outcome.bind_eq_ok_iff.1 h
    have hkey : c.key = .ok key := hkey
    rw [firstOccurrences_cons, hkey]
    by_cases hknown : table.contains key = true ∨ key ∈ seen
    · rw [if_pos (by simpa using hknown)] at h
      rw [if_pos (mem_knownKeys.2 hknown)]
      exact ih h
    · rw [if_neg (by simpa using hknown)] at h
      rw [if_neg (mt mem_knownKeys.1 hknown)]
      obtain ⟨rest, hrest, h⟩ := Outcome.bind_eq_ok_iff.1 h
      cases h
      have hcongr := firstOccurrences_congr Candidate.key
        (mem_knownKeys_cons table seen key) cs
      exact .cons ⟨⟨hkey, rfl, rfl⟩, rfl, rfl⟩ (hcongr ▸ ih hrest)

theorem keys_of_isNew {cs : List Candidate} (h : List.Forall₂ (Entry.IsNew depth) cs fresh) :
    (fresh.map (·.key)).map Except.ok = cs.map Candidate.key := by
  induction h with
  | nil => rfl
  | cons hc _ ih => simp [hc.key, ih]

theorem nodup_keys_of_freshEntries (htable : table.keys.Nodup)
    (h : freshEntries depth table [] cs = .ok fresh) :
    (table.keys ++ fresh.map (·.key)).Nodup := by
  have hkeys := keys_of_isNew (forall₂_of_freshEntries h)
  have hnodup := nodup_map_firstOccurrences Candidate.key (knownKeys table []) cs
  rw [← hkeys] at hnodup
  refine List.nodup_append.2 ⟨htable, hnodup.of_map, ?_⟩
  rintro key hkey _ hfresh rfl
  have hmem : Except.ok key ∈ (firstOccurrences Candidate.key (knownKeys table []) cs).map
      Candidate.key := hkeys ▸ List.mem_map_of_mem hfresh
  obtain ⟨c, hc, he⟩ := List.mem_map.1 hmem
  refine not_mem_of_mem_firstOccurrences hc (he ▸ mem_knownKeys.2 (.inl ?_))
  exact Table.contains_iff.2 hkey

theorem mem_keys_of_freshEntries (h : freshEntries depth table [] cs = .ok fresh) {c : Candidate}
    (hc : c ∈ cs) : ∃ key, c.key = .ok key ∧ key ∈ table.keys ++ fresh.map (·.key) := by
  have hkeys := keys_of_isNew (forall₂_of_freshEntries h)
  have hc : c.key ∈ knownKeys table [] ∨ c.key ∈
      (firstOccurrences Candidate.key (knownKeys table []) cs).map Candidate.key :=
    mem_or_mem_map_firstOccurrences hc
  rcases hc with hc | hc
  · obtain ⟨key, hkey, he⟩ := List.mem_map.1 hc
    exact ⟨key, he.symm, List.mem_append_left _ (by simpa [knownKeys] using hkey)⟩
  · rw [← hkeys] at hc
    obtain ⟨key, hkey, he⟩ := List.mem_map.1 hc
    exact ⟨key, he.symm, List.mem_append_right _ hkey⟩

theorem mem_keys_freshEntries_iff (h : freshEntries depth table [] cs = .ok fresh) {key : String} :
    key ∈ fresh.map (·.key) ↔ .ok key ∈ cs.map Candidate.key ∧ key ∉ table.keys := by
  have hkeys := keys_of_isNew (forall₂_of_freshEntries h)
  constructor
  · intro hkey
    have hkey : Except.ok key ∈ (fresh.map (·.key)).map (Except.ok (ε := NodeFault)) :=
      List.mem_map_of_mem hkey
    rw [hkeys] at hkey
    obtain ⟨c, hc, heq⟩ := List.mem_map.1 hkey
    have hunknown := not_mem_of_mem_firstOccurrences hc
    rw [heq, mem_knownKeys, not_or, Table.contains_iff] at hunknown
    exact ⟨List.mem_map.2 ⟨c, mem_of_mem_firstOccurrences hc, heq⟩, hunknown.1⟩
  · rintro ⟨hkey, hunknown⟩
    obtain ⟨c, hc, heq⟩ := List.mem_map.1 hkey
    obtain ⟨key', hkey', hmem⟩ := mem_keys_of_freshEntries h hc
    obtain rfl : key = key' := Except.ok.inj (heq.symm.trans hkey')
    exact (List.mem_append.1 hmem).resolve_left hunknown

theorem exists_freshEntries (depth : Nat) (table : Table) (seen : List String)
    (h : ∀ c ∈ cs, c.tree.IsValid) : ∃ fresh, freshEntries depth table seen cs = .ok fresh := by
  induction cs generalizing seen with
  | nil => exact ⟨[], rfl⟩
  | cons c cs ih =>
    have hkey := (h c (by simp)).text_simplify
    have ih (seen) := ih seen fun d hd ↦ h d (by simp [hd])
    simp only [freshEntries, hkey]
    by_cases hknown : table.contains c.tree.terms.reduce.text || c.tree.terms.reduce.text ∈ seen
    · obtain ⟨fresh, hfresh⟩ := ih seen
      exact ⟨fresh, Outcome.bind_eq_ok_iff.2 ⟨_, rfl, (if_pos hknown).trans hfresh⟩⟩
    · obtain ⟨fresh, hfresh⟩ := ih (c.tree.terms.reduce.text :: seen)
      exact ⟨_, Outcome.bind_eq_ok_iff.2 ⟨_, rfl, (if_neg hknown).trans
        (Outcome.bind_eq_ok_iff.2 ⟨fresh, hfresh, rfl⟩)⟩⟩

end Search

end CovarianceSearch
