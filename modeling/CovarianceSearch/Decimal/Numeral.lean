import CovarianceSearch.Decimal.Magnitude

namespace CovarianceSearch.Decimal

def readDigits (acc : Nat) : List Char → Option Nat
  | [] => some acc
  | c :: cs => if c.isDigit then readDigits (10 * acc + (c.toNat - '0'.toNat)) cs else none

def readNat? (cs : List Char) : Option Nat := if cs.isEmpty then none else readDigits 0 cs

def readUnsigned? (cs : List Char) : Option Nat :=
  match cs with
  | '+' :: ds => readNat? ds
  | ds => readNat? ds

/-- A number as it is written: a sign, digits, perhaps a fraction, perhaps a power of ten. -/
structure Numeral where
  sign : Option Char
  whole : List Char
  fraction : Option (List Char)
  power : Option Int

namespace Numeral

def takeSign : List Char → Option Char × List Char
  | '-' :: cs => (some '-', cs)
  | '+' :: cs => (some '+', cs)
  | cs => (none, cs)

def takeDigits (cs : List Char) : List Char × List Char :=
  (cs.takeWhile (·.isDigit), cs.dropWhile (·.isDigit))

def readSigned? (cs : List Char) : Option Int :=
  let (sign, ds) := takeSign cs
  (readNat? ds).map fun n : Nat ↦ if sign = some '-' then -(n : Int) else n

def read? (cs : List Char) : Option Numeral :=
  let (sign, cs) := takeSign cs
  let (whole, cs) := takeDigits cs
  let (fraction, cs) : Option (List Char) × List Char := match cs with
    | '.' :: rest => ((takeDigits rest).map some id)
    | _ => (none, cs)
  match cs with
  | [] => some ⟨sign, whole, fraction, none⟩
  | c :: rest =>
    if c = 'e' ∨ c = 'E' then (readSigned? rest).map fun power ↦ ⟨sign, whole, fraction, some power⟩
    else none

def isNegative (n : Numeral) : Bool := n.sign = some '-'

def isWhole (n : Numeral) : Bool := n.fraction.isNone && n.power.isNone

def isStrict (n : Numeral) : Bool :=
  match n.whole with
  | [] => false
  | [_] => n.fraction ≠ some []
  | c :: _ => c ≠ '0' && n.fraction ≠ some []

def hasDigits (n : Numeral) : Bool := n.whole ≠ [] || n.fraction.any (· ≠ [])

def toInt (n : Numeral) : Int :=
  let value := (readDigits 0 n.whole).getD 0
  if n.isNegative then -value else value

/-- The nearest float. The size of the number decides first whether it can be one at all. -/
def toFloat (n : Numeral) : Float :=
  let fraction := n.fraction.getD []
  let ds := (n.whole ++ fraction).dropWhile (· = '0')
  let value := (readDigits 0 ds).getD 0
  let power := n.power.getD 0 - fraction.length
  let size := power + ds.length
  let x : Float :=
    if value = 0 || size < -400 then 0.0
    else if 400 < size then 1.0 / 0.0
    else Float.ofScientific value (power < 0) power.natAbs
  if n.isNegative then -x else x

def ofLetters? (cs : List Char) : Option Float :=
  match String.ofList (cs.map Char.toLower) with
  | "inf" | "infinity" => some (1.0 / 0.0)
  | "nan" => some (0.0 / 0.0)
  | _ => none

def readReal? (cs : List Char) : Option Float :=
  let (sign, rest) := takeSign cs
  match ofLetters? rest with
  | some x => some (if sign = some '-' then -x else x)
  | none => (read? cs).bind fun n ↦ if n.hasDigits then some n.toFloat else none

end Numeral

end CovarianceSearch.Decimal
