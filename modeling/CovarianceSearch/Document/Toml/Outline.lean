import CovarianceSearch.Document.Datum

namespace CovarianceSearch.Toml

/-- How a table comes about: by a header of its own, on the way to the table of another header, or
by a key with points. -/
inductive Origin where
  | header | passage | key
  deriving DecidableEq

/-- What stands in a document so far. The tables of an array stand in it from the last one on. -/
inductive Outline where
  | value (d : Datum)
  | table (origin : Origin) (fields : List (String × Outline))
  | array (tables : List Outline)

namespace Outline

mutual

def toDatum : Outline → Datum
  | .value d => d
  | .table _ fields => .table (fieldData fields)
  | .array tables => .list (tableData [] tables)

def fieldData : List (String × Outline) → List (String × Datum)
  | [] => []
  | (key, o) :: fields => (key, toDatum o) :: fieldData fields

def tableData (later : List Datum) : List Outline → List Datum
  | [] => later
  | o :: os => tableData (toDatum o :: later) os

end

end Outline

abbrev Branches := List (String × Outline)

namespace Branches

/-- Changes the table at the end of a path, and perhaps what it comes about by. Missing tables come
about by `origin`, and keys with points do not lead through the table of a header. -/
def within? (origin : Origin) (change : Origin → Branches → Option (Origin × Branches)) :
    (path : List String) → Origin → Branches → Option (Origin × Branches)
  | [], here, b => change here b
  | key :: keys, here, b =>
    match b.lookup key with
    | none => (within? origin change keys origin []).map fun (there, inner) ↦
      (here, Datum.setField key (.table there inner) b)
    | some (.table there inner) =>
      if origin = .key && there = .header then none
      else (within? origin change keys there inner).map fun (there, inner) ↦
        (here, Datum.setField key (.table there inner) b)
    | some (.array (.table there inner :: tables)) =>
      (within? origin change keys there inner).map fun (there, inner) ↦
        (here, Datum.setField key (.array (.table there inner :: tables)) b)
    | some _ => none

def openTable? (key : String) (b : Branches) : Option Branches :=
  match b.lookup key with
  | none => some (Datum.setField key (.table .header []) b)
  | some (.table .passage inner) => some (Datum.setField key (.table .header inner) b)
  | some _ => none

def openItem? (key : String) (b : Branches) : Option Branches :=
  match b.lookup key with
  | none => some (Datum.setField key (.array [.table .header []]) b)
  | some (.array tables) => some (Datum.setField key (.array (.table .header [] :: tables)) b)
  | some _ => none

def addHeader? (isItem : Bool) (path : List String) (b : Branches) : Option Branches := do
  let key ← path.getLast?
  let opened (here : Origin) (inner : Branches) :=
    (if isItem then inner.openItem? key else inner.openTable? key).map (here, ·)
  return (← b.within? .passage opened path.dropLast .header).2

def addValue? (key : String) (d : Datum) (b : Branches) : Option Branches :=
  if (b.lookup key).isSome then none else some (b ++ [(key, .value d)])

/-- Adds a value along a path of keys, the last of which adds to a table that has come about by
such a path or, if `adopts` says so, on the way to the table of a header. From then on that table
counts as one that has come about by keys. -/
def addAlong? (adopts : Bool) (path : List String) (d : Datum) (b : Branches) :
    Option Branches := do
  let key ← path.getLast?
  let added (here : Origin) (inner : Branches) :=
    if path.length = 1 || here = .key || (adopts && here = .passage) then
      (inner.addValue? key d).map (.key, ·)
    else none
  return (← b.within? .key added path.dropLast .header).2

def addBelow? (adopts : Bool) (header path : List String) (d : Datum) (b : Branches) :
    Option Branches :=
  let added (here : Origin) (inner : Branches) := (addAlong? adopts path d inner).map (here, ·)
  (b.within? .passage added header .header).map (·.2)

def toDatum (b : Branches) : Datum := .table (Outline.fieldData b)

end Branches

end CovarianceSearch.Toml
