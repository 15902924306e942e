import CovarianceSearch.Decimal.Numeral
import CovarianceSearch.Document.Datum
import CovarianceSearch.Document.Field

namespace CovarianceSearch

namespace Datum

def fields (d : Datum) : Fields := d.fields?.getD []

def items : Datum → List Datum
  | .list items => items
  | _ => []

end Datum

/-- A step from a datum to a part of it. Positions below zero count from the end of a list. -/
inductive Path.Step where
  | key (name : String)
  | item (position : Int)

abbrev Path := List Path.Step

namespace Path

/-- A list that is made longer by nulls until it has a position, at the end or, for positions below
zero, at the front, and the index of the position. -/
def stretch (position : Int) (items : List Datum) : List Datum × Nat :=
  if 0 ≤ position then
    (items ++ .replicate (position.toNat + 1 - items.length) .null, position.toNat)
  else
    (.replicate (position.natAbs - items.length) .null ++ items, items.length - position.natAbs)

/-- Changes what is at the end of a path. What stands in its way gives place to tables and lists. -/
def change (f : Datum → Datum) : Path → Datum → Datum
  | [], d => f d
  | .key name :: steps, d =>
    .table (Datum.setField name (change f steps ((d.fields.lookup name).getD .null)) d.fields)
  | .item position :: steps, d =>
    let (items, i) := stretch position d.items
    .list (items.modify i (change f steps))

def isReachable (path : Path) : Bool :=
  path.all fun
    | .key _ => true
    | .item position => position.natAbs < UInt32.size

def isWord (c : Char) : Bool := c.isAlphanum || c = '_' || c = '-'

def isSpace (c : Char) : Bool := c = ' ' || c = '\t'

def position? (cs : List Char) : Option Int :=
  let n? := match cs with
    | '-' :: ds => (Decimal.readNat? ds).map fun n : Nat ↦ -(n : Int)
    | ds => (Decimal.readNat? ds).map Int.ofNat
  n?.bind fun n ↦ if fitsWord n then some n else none

def subscript? : List Char → Option Int
  | '[' :: cs => position? (((cs.dropWhile isSpace).reverse.dropWhile isSpace).reverse)
  | _ => none

def subscripts? (cs : List Char) : Option (List Int) :=
  match (cs.splitOn ']').reverse with
  | [] :: parts => parts.reverse.mapM subscript?
  | _ => none

def segment? (cs : List Char) : Option Path :=
  let name := cs.takeWhile isWord
  if name.isEmpty then none
  else (subscripts? (cs.dropWhile isWord)).map fun positions ↦
    .key (String.ofList name) :: positions.map .item

def read? (cs : List Char) : Option Path := ((cs.splitOn '.').mapM segment?).map List.flatten

/-- The path that a text describes. A text that describes none is itself a key. -/
def ofText (s : String) : Path := (read? s.toList).getD [.key s]

end Path

end CovarianceSearch
