namespace CovarianceSearch

/-- Values for named parameters, in the order of the names. -/
structure Assignment where
  entries : List (String × Float)
  ordered : entries.Pairwise fun p q ↦ p.1 < q.1

namespace Assignment

def insertEntry (name : String) (value : Float) : List (String × Float) → List (String × Float)
  | [] => [(name, value)]
  | (n, v) :: rest =>
    if name < n then (name, value) :: (n, v) :: rest
    else if n < name then (n, v) :: insertEntry name value rest
    else (name, value) :: rest

theorem mem_insertEntry {name : String} {value : Float} {entries : List (String × Float)}
    {p : String × Float} (h : p ∈ insertEntry name value entries) :
    p = (name, value) ∨ p ∈ entries := by
  induction entries with
  | nil => simpa [insertEntry] using h
  | cons q rest ih =>
    unfold insertEntry at h
    grind

theorem insertEntry_ordered (name : String) (value : Float) (entries : List (String × Float))
    (h : entries.Pairwise fun p q ↦ p.1 < q.1) :
    (insertEntry name value entries).Pairwise fun p q ↦ p.1 < q.1 := by
  induction entries with
  | nil => simp [insertEntry]
  | cons q rest ih =>
    obtain ⟨hq, hrest⟩ := List.pairwise_cons.1 h
    unfold insertEntry
    split
    · next hlt =>
      refine List.pairwise_cons.2 ⟨fun p hp ↦ ?_, h⟩
      obtain rfl | hp := List.mem_cons.1 hp
      · exact hlt
      · exact String.lt_trans hlt (hq p hp)
    · split
      · next hlt =>
        refine List.pairwise_cons.2 ⟨fun p hp ↦ ?_, ih hrest⟩
        obtain rfl | hp := mem_insertEntry hp
        · exact hlt
        · exact hq p hp
      · next hle hge =>
        have he : name = q.1 := String.le_antisymm (String.not_lt.1 hge) (String.not_lt.1 hle)
        exact List.pairwise_cons.2 ⟨he ▸ hq, hrest⟩

def empty : Assignment := ⟨[], .nil⟩

def insert (m : Assignment) (name : String) (value : Float) : Assignment :=
  ⟨insertEntry name value m.entries, insertEntry_ordered name value m.entries m.ordered⟩

/-- Of several values for one name the last one counts. -/
def ofList (entries : List (String × Float)) : Assignment :=
  entries.foldl (fun m p ↦ m.insert p.1 p.2) empty

def get? (m : Assignment) (name : String) : Option Float := m.entries.lookup name

def names (m : Assignment) : List String := m.entries.map (·.1)

def values (m : Assignment) : List Float := m.entries.map (·.2)

def size (m : Assignment) : Nat := m.entries.length

end Assignment

end CovarianceSearch
