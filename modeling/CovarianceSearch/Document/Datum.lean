namespace CovarianceSearch

def fitsWord (n : Int) : Bool := Int64.minValue.toInt ≤ n && n ≤ Int64.maxValue.toInt

inductive Datum where
  | null
  | bool (b : Bool)
  | integer (n : Int)
  | real (x : Float)
  | text (s : String)
  | list (items : List Datum)
  | table (fields : List (String × Datum))

namespace Datum

/-- Gives a key a value, in its old place if there is one. -/
def setField {α : Type} (key : String) (value : α) : List (String × α) → List (String × α)
  | [] => [(key, value)]
  | (k, d) :: fields =>
    if k = key then (key, value) :: fields else (k, d) :: setField key value fields

/-- The table of all pairs. The last value of a key counts. -/
def ofPairs (pairs : List (String × Datum)) : Datum :=
  .table (pairs.foldl (fun fields (k, d) ↦ setField k d fields) [])

mutual

/-- Lays a datum over another. Tables are merged field by field, all else is replaced. -/
def overlay (base : Datum) : Datum → Datum
  | .table changes =>
    match base with
    | .table fields => .table (overlayFields fields changes)
    | _ => .table (overlayFields [] changes)
  | d => d

def overlayFields (fields : List (String × Datum)) : List (String × Datum) →
    List (String × Datum)
  | [] => fields
  | (k, d) :: changes =>
    overlayFields (setField k (overlay ((fields.lookup k).getD .null) d) fields) changes

end

mutual

def texts : Datum → List String
  | .text s => [s]
  | .list items => itemTexts items
  | .table fields => fieldTexts fields
  | _ => []

def itemTexts : List Datum → List String
  | [] => []
  | d :: ds => texts d ++ itemTexts ds

def fieldTexts : List (String × Datum) → List String
  | [] => []
  | (_, d) :: fields => texts d ++ fieldTexts fields

end

end Datum

end CovarianceSearch
