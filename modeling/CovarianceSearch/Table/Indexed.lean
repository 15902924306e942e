import CovarianceSearch.Table

namespace CovarianceSearch

/-- A table that knows where the entry of each key stands. -/
structure IndexedTable where
  entries : List Entry
  /-- The keys with the positions of their entries. -/
  index : List (String × Nat)

namespace IndexedTable

def empty : IndexedTable := ⟨[], []⟩

def toTable (t : IndexedTable) : Table := ⟨t.entries⟩

def keys (t : IndexedTable) : List String := t.entries.map (·.key)

def position? (t : IndexedTable) (key : String) : Option Nat := t.index.lookup key

def contains (t : IndexedTable) (key : String) : Bool := (t.position? key).isSome

def find? (t : IndexedTable) (key : String) : Option Entry :=
  (t.position? key).bind (t.entries[·]?)

def insert (t : IndexedTable) (e : Entry) : IndexedTable × Bool :=
  if t.contains e.key then (t, false)
  else (⟨t.entries ++ [e], (e.key, t.entries.length) :: t.index⟩, true)

/-- Scores the entry with a key unless it has been scored before, and says whether it was. A
position behind the last entry is no place to look at. -/
def record (t : IndexedTable) (key : String) (score : Float) (params : Option Assignment) :
    Option (IndexedTable × Bool) :=
  match t.position? key with
  | none => some (t, false)
  | some i => do
    let e ← t.entries[i]?
    if e.evaluated then return (t, false)
    else
      let scored := { e with score := score, params := params, evaluated := true }
      return ({ t with entries := t.entries.set i scored }, true)

end IndexedTable

inductive TableCall where
  | insert (e : Entry)
  | record (key : String) (score : Float) (params : Option Assignment)

namespace TableCall

def apply (t : IndexedTable) : TableCall → Option (IndexedTable × Bool)
  | .insert e => some (t.insert e)
  | .record key score params => t.record key score params

end TableCall

def IndexedTable.run (t : IndexedTable) (calls : List TableCall) : Option IndexedTable :=
  calls.foldlM (fun t call ↦ (call.apply t).map (·.1)) t

end CovarianceSearch
