import CovarianceSearch.Decimal.Numeral
import CovarianceSearch.Document.Datum
import CovarianceSearch.Document.Json.Read

namespace CovarianceSearch.Yaml

/-- A value that holds no others. Reals are told apart by how they are written. -/
inductive Atom where
  | null
  | bool (b : Bool)
  | integer (n : Int)
  | real (written : List Char)
  | text (s : String)
  deriving DecidableEq

namespace Atom

def readWhole? (radix : Nat) (cs : List Char) : Option Int := do
  let (sign, ds) := Decimal.Numeral.takeSign cs
  let values ← ds.mapM Json.hexDigit?
  let n : Nat := values.foldl (fun acc v ↦ radix * acc + v) 0
  let n : Int := if sign = some '-' then -n else n
  if !values.isEmpty && values.all (· < radix) && fitsWord n then some n else none

def readInteger? (cs : List Char) : Option Int :=
  match cs with
  | '0' :: 'x' :: ds => readWhole? 16 ds
  | '0' :: 'o' :: ds => readWhole? 8 ds
  | '+' :: ds => readWhole? 10 ds
  | ds => readWhole? 10 ds

/-- What is written like a real has a digit, unless it is one of the words for those without. -/
def isReal (cs : List Char) : Bool :=
  String.ofList cs ∈ [".inf", ".Inf", ".INF", "+.inf", "+.Inf", "+.INF", "-.inf", "-.Inf", "-.INF",
    ".nan", ".NaN", ".NAN"] ||
  cs.any (·.isDigit) && (Decimal.Numeral.readReal? cs).isSome

def ofPlain (s : String) : Atom :=
  match s with
  | "" | "~" | "null" => .null
  | "true" => .bool true
  | "false" => .bool false
  | _ =>
    match readInteger? s.toList with
    | some n => .integer n
    | none => if isReal s.toList then .real s.toList else .text s

/-- The value of a text without quotes that is said to be of a type. One that is not is null. -/
def ofTagged (type s : String) : Atom :=
  match type with
  | "bool" => if s = "true" then .bool true else if s = "false" then .bool false else .null
  | "int" => (readWhole? 10 s.toList).elim .null .integer
  | "float" => if isReal s.toList then .real s.toList else .null
  | "null" => .null
  | _ => .text s

/-- The words for reals without digits cannot be turned into data. -/
def toDatum? : Atom → Option Datum
  | .null => some .null
  | .bool b => some (.bool b)
  | .integer n => some (.integer n)
  | .real written => (Decimal.Numeral.readReal? written).map .real
  | .text s => some (.text s)

def key? : Atom → Option String
  | .null => none
  | .bool b => some (if b then "true" else "false")
  | .integer n => some (toString n)
  | .real written => some (String.ofList written)
  | .text s => some s

end Atom

end CovarianceSearch.Yaml
