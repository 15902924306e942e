import CovarianceSearch.Document.Datum

namespace CovarianceSearch

abbrev Fields := List (String × Datum)

variable {α : Type}

namespace Datum

def bool? : Datum → Option Bool
  | .bool b => some b
  | _ => none

def integer? : Datum → Option Int
  | .integer n => if fitsWord n then some n else none
  | _ => none

def natural? : Datum → Option Nat
  | .integer n => if 0 ≤ n ∧ n < UInt64.size then some n.toNat else none
  | _ => none

/-- Whole numbers may stand for reals, but not the other way round. -/
def real? : Datum → Option Float
  | .real x => some x
  | .integer n => some (.ofInt n)
  | _ => none

def fields? : Datum → Option Fields
  | .table fields => some fields
  | _ => none

def text? : Datum → Option String
  | .text s => some s
  | _ => none

def items? (item? : Datum → Option α) : Datum → Option (List α)
  | .list items => items.mapM item?
  | _ => none

def optional? (value? : Datum → Option α) : Datum → Option (Option α)
  | .null => some none
  | d => (value? d).map some

/-- The fields of a record. A list holds their values in the order of `names`. -/
def record? (names : List String) : Datum → Option Fields
  | .table fields => some fields
  | .list items => if items.length = names.length then some (names.zip items) else none
  | _ => none

/-- The fields of a record that may lack some of them. A list lacks the last ones or, if `surplus`
says so, goes on after them. -/
def section? (names : List String) (surplus : Bool) : Datum → Option Fields
  | .table fields => some fields
  | .list items =>
    if surplus || items.length ≤ names.length then some (names.zip items) else none
  | _ => none

def isNull : Datum → Bool
  | .null => true
  | _ => false

def isEmpty : Datum → Bool
  | .list [] => true
  | .table [] => true
  | _ => false

/-- A choice among named values, written as its name or as a table of the name and something
blank. -/
def choice? (ofName? : String → Option α) (blank : Datum → Bool) : Datum → Option α
  | .text name => ofName? name
  | .table [(name, d)] => if blank d then ofName? name else none
  | _ => none

end Datum

namespace Fields

def required? (fields : Fields) (name : String) (value? : Datum → Option α) : Option α :=
  (fields.lookup name).bind value?

def optional? (fields : Fields) (name : String) (value? : Datum → Option α) :
    Option (Option α) :=
  ((fields.lookup name).getD .null).optional? value?

def defaulted? (fields : Fields) (name : String) (default : α) (value? : Datum → Option α) :
    Option α :=
  match fields.lookup name with
  | some d => value? d
  | none => some default

end Fields

end CovarianceSearch
