import CovarianceSearch.Decimal.Numeral
import CovarianceSearch.Document.Toml.Dialect

namespace CovarianceSearch.Toml

def isLeapYear (year : Nat) : Bool := year % 4 = 0 && (year % 100 ≠ 0 || year % 400 = 0)

def daysIn (year month : Nat) : Nat :=
  if month = 2 then if isLeapYear year then 29 else 28
  else if month ∈ [4, 6, 9, 11] then 30
  else 31

def isWithin (low high : Nat) (ds : List Char) : Bool :=
  (Decimal.readNat? ds).any fun n ↦ low ≤ n && n ≤ high

def readDate : List Char → Option (List Char × List Char)
  | a :: b :: c :: d :: '-' :: e :: f :: '-' :: g :: h :: rest => do
    let year ← Decimal.readNat? [a, b, c, d]
    let month ← Decimal.readNat? [e, f]
    if isWithin 1 12 [e, f] && isWithin 1 (daysIn year month) [g, h] then
      some ([a, b, c, d, '-', e, f, '-', g, h], rest)
    else none
  | _ => none

def fractionText (ds : List Char) : List Char :=
  match ((ds.take 9).reverse.dropWhile (· = '0')).reverse with
  | [] => ['.', '0']
  | kept => '.' :: kept

def readFraction (cs : List Char) : List Char × List Char :=
  match cs with
  | '.' :: rest =>
    let (ds, after) := Decimal.Numeral.takeDigits rest
    if ds.isEmpty then ([], cs) else (fractionText ds, after)
  | _ => ([], cs)

/-- Reads a time of the day. A minute may have a leap second. -/
def readClock (t : Dialect) : List Char → Option (List Char × List Char)
  | a :: b :: ':' :: c :: d :: rest =>
    if isWithin 0 23 [a, b] && isWithin 0 59 [c, d] then
      match rest with
      | ':' :: e :: f :: rest =>
        let (fraction, rest) := readFraction rest
        if isWithin 0 60 [e, f] then some ([a, b, ':', c, d, ':', e, f] ++ fraction, rest)
        else none
      | _ => if t.isRecent then some ([a, b, ':', c, d], rest) else none
    else none
  | _ => none

/-- Reads the distance from universal time. There is none west of Greenwich that is zero. -/
def readOffset : List Char → List Char × List Char
  | 'Z' :: rest | 'z' :: rest => (['Z'], rest)
  | c :: a :: b :: ':' :: d :: e :: rest =>
    if (c = '+' || c = '-') && isWithin 0 23 [a, b] && isWithin 0 59 [d, e] then
      let sign := if [a, b, d, e] = ['0', '0', '0', '0'] then '+' else c
      ([sign, a, b, ':', d, e], rest)
    else ([], c :: a :: b :: ':' :: d :: e :: rest)
  | cs => ([], cs)

def readClockAfterDate (t : Dialect) : List Char → List Char × List Char
  | c :: rest =>
    if c = 'T' || c = 't' || c = ' ' then
      match readClock t rest with
      | some (clock, rest) => ((readOffset rest).map ('T' :: clock ++ ·) id)
      | none => ([], c :: rest)
    else ([], c :: rest)
  | [] => ([], [])

def readTime (t : Dialect) (cs : List Char) : Option (String × List Char) :=
  match readDate cs with
  | some (date, rest) =>
    let (clock, rest) := readClockAfterDate t rest
    some (String.ofList (date ++ clock), rest)
  | none => (readClock t cs).map fun (clock, rest) ↦ (String.ofList clock, rest)

end CovarianceSearch.Toml
