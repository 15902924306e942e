import CovarianceSearch.Entry
import CovarianceSearch.StableSort

namespace CovarianceSearch

/-- The structures that a search has seen, each under a key of its own and in the order in which
they came up. -/
structure Table where
  entries : List Entry

namespace Table

def empty : Table := ⟨[]⟩

def find? (t : Table) (key : String) : Option Entry := t.entries.find? (·.key = key)

def contains (t : Table) (key : String) : Bool := t.entries.any (·.key = key)

def size (t : Table) : Nat := t.entries.length

def keys (t : Table) : List String := t.entries.map (·.key)

def insert (t : Table) (e : Entry) : Table × Bool :=
  if t.contains e.key then (t, false) else (⟨t.entries ++ [e]⟩, true)

def insertAll (t : Table) (es : List Entry) : Table := es.foldl (fun t e ↦ (t.insert e).1) t

def record (t : Table) (key : String) (score : Float) (params : Option Assignment) :
    Table × Bool :=
  match t.find? key with
  | some ⟨_, _, _, _, _, _, false⟩ =>
    let scored (e : Entry) : Entry :=
      if e.key = key then { e with score := score, params := params, evaluated := true } else e
    (⟨t.entries.map scored⟩, true)
  | _ => (t, false)

/-- The entries from the best score on. Equal scores keep the order of the table. -/
def ranked (t : Table) : List Entry := StableSort.sort (fun a b ↦ a.score < b.score) t.entries

def best (t : Table) (n : Nat) : List Entry := t.ranked.take n

def bestScore (t : Table) : Float :=
  t.entries.foldl (fun least e ↦ if e.score < least then e.score else least) Entry.infinity

end Table

end CovarianceSearch
