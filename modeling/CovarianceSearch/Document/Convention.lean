import CovarianceSearch.Decimal.Numeral
import CovarianceSearch.Decimal.Text
import CovarianceSearch.Document.Field

namespace CovarianceSearch

/-- How scalars are understood, what may stand behind the name of a choice, and whether a list may
be longer than the record that it stands for. -/
structure Convention where
  bool? : Datum → Option Bool
  natural? : Datum → Option Nat
  real? : Datum → Option Float
  text? : Datum → Option String
  blank : Datum → Bool
  surplus : Bool

namespace Convention

def literal (blank : Datum → Bool) (surplus : Bool) : Convention :=
  ⟨Datum.bool?, Datum.natural?, Datum.real?, Datum.text?, blank, surplus⟩

/-- The lower case of a character, where it is a letter of ASCII. The kelvin sign has one too. -/
def lowerChar (c : Char) : Char := if c.toNat = 0x212A then 'k' else c.toLower

def lowered (s : String) : String := String.ofList (s.toList.map lowerChar)

def ofWord? (s : String) : Option Bool :=
  match lowered s with
  | "true" | "on" | "yes" => some true
  | "false" | "off" | "no" => some false
  | _ => none

def asBool? : Datum → Option Bool
  | .bool b => some b
  | .integer n => some (n ≠ 0)
  | .real x => some (x != 0.0)
  | .text s => if s = "1" then some true else if s = "0" then some false else ofWord? s
  | _ => none

/-- The nearest whole number that fits into 64 bits. -/
def rounded (x : Float) : Nat := x.round.toUInt64.toNat

def asNatural? : Datum → Option Nat
  | .bool b => some b.toNat
  | .integer n => if 0 ≤ n ∧ n < UInt64.size then some n.toNat else none
  | .real x => some (rounded x)
  | .text s =>
    match ofWord? s with
    | some b => some b.toNat
    | none => (Decimal.readUnsigned? s.toList).bind fun n ↦ if n < UInt64.size then some n else none
  | _ => none

def asReal? : Datum → Option Float
  | .bool b => some (if b then 1.0 else 0.0)
  | .integer n => some (.ofInt n)
  | .real x => some x
  | .text s =>
    match ofWord? s with
    | some b => some (if b then 1.0 else 0.0)
    | none => Decimal.Numeral.readReal? s.toList
  | _ => none

def asText? : Datum → Option String
  | .bool b => some (if b then "true" else "false")
  | .integer n => some (toString n)
  | .real x => some (Decimal.Style.plain.text x)
  | .text s => some s
  | _ => none

/-- Scalars are turned into one another where that makes sense. -/
def converting : Convention := ⟨asBool?, asNatural?, asReal?, asText?, fun _ ↦ true, true⟩

end Convention

/-- Why a datum is not written: a format has no form for something in it, or what has to be counted
for writing it gets out of range. -/
inductive Format.Refusal where
  | unsupported
  | overflow

structure Format where
  read? : String → Option Datum
  write : Datum → Except Format.Refusal String
  convention : Convention

end CovarianceSearch
