import CovarianceSearch.Decimal.Numeral
import CovarianceSearch.Document.Datum

namespace CovarianceSearch.Json

def skipBlanks (cs : List Char) : List Char :=
  cs.dropWhile fun c ↦ c = ' ' || c = '\n' || c = '\r' || c = '\t'

def hexDigit? (c : Char) : Option Nat :=
  if c.isDigit then some (c.toNat - '0'.toNat)
  else if 'a' ≤ c ∧ c ≤ 'f' then some (c.toNat - 'a'.toNat + 10)
  else if 'A' ≤ c ∧ c ≤ 'F' then some (c.toNat - 'A'.toNat + 10)
  else none

def readHex (acc : Nat) : List Char → Option Nat
  | [] => some acc
  | c :: cs => (hexDigit? c).bind fun n ↦ readHex (16 * acc + n) cs

def charOfCode? (n : Nat) : Option Char := if n.isValidChar then some (.ofNat n) else none

def charOfPair? (high low : Nat) : Option Char :=
  if 0xD800 ≤ high ∧ high < 0xDC00 ∧ 0xDC00 ≤ low ∧ low < 0xE000 then
    charOfCode? (0x10000 + (high - 0xD800) * 0x400 + (low - 0xDC00))
  else none

def ofEscape? : Char → Option Char
  | '"' => some '"'
  | '\\' => some '\\'
  | '/' => some '/'
  | 'b' => some (.ofNat 8)
  | 'f' => some (.ofNat 12)
  | 'n' => some '\n'
  | 'r' => some '\r'
  | 't' => some '\t'
  | _ => none

/-- The rest of a text whose opening quote has been read, and what follows it. -/
def readText : List Char → Option (List Char × List Char)
  | '"' :: rest => some ([], rest)
  | '\\' :: 'u' :: a :: b :: c :: d :: '\\' :: 'u' :: e :: f :: g :: h :: rest => do
    let n ← readHex 0 [a, b, c, d]
    match charOfCode? n with
    | some char =>
      let (cs, r) ← readText ('\\' :: 'u' :: e :: f :: g :: h :: rest)
      return (char :: cs, r)
    | none =>
      let char ← charOfPair? n (← readHex 0 [e, f, g, h])
      let (cs, r) ← readText rest
      return (char :: cs, r)
  | '\\' :: 'u' :: a :: b :: c :: d :: rest => do
    let char ← charOfCode? (← readHex 0 [a, b, c, d])
    let (cs, r) ← readText rest
    return (char :: cs, r)
  | '\\' :: c :: rest => do
    let char ← ofEscape? c
    let (cs, r) ← readText rest
    return (char :: cs, r)
  | c :: rest =>
    if c.toNat < 0x20 then none
    else (readText rest).map fun (cs, r) ↦ (c :: cs, r)
  | [] => none

def isNumeric (c : Char) : Bool := c.isDigit || c = '+' || c = '-' || c = '.' || c = 'e' || c = 'E'

/-- Whole numbers that need more than 64 bits, and negative zero, are read as floats. -/
def ofNumeral? (n : Decimal.Numeral) : Option Datum :=
  if !n.isStrict || n.sign = some '+' then none
  else
    let value := n.toInt
    if n.isWhole && Int64.minValue.toInt ≤ value && value < UInt64.size &&
        !(n.isNegative && value = 0) then
      some (.integer value)
    else
      let x := n.toFloat
      if x.isFinite then some (.real x) else none

def readAtom (cs : List Char) : Option (Datum × List Char) :=
  match cs with
  | 'n' :: 'u' :: 'l' :: 'l' :: rest => some (.null, rest)
  | 't' :: 'r' :: 'u' :: 'e' :: rest => some (.bool true, rest)
  | 'f' :: 'a' :: 'l' :: 's' :: 'e' :: rest => some (.bool false, rest)
  | '"' :: rest => (readText rest).map fun (s, r) ↦ (.text (String.ofList s), r)
  | _ => do
    let numeral ← Decimal.Numeral.read? (cs.takeWhile isNumeric)
    return (← ofNumeral? numeral, cs.dropWhile isNumeric)

mutual

/-- Reads a value in which `room` more are nested at most. No more of them follow one another than
`bound` says. -/
def readValue : (bound room : Nat) → List Char → Option (Datum × List Char)
  | 0, _, _ => none
  | bound + 1, room, cs =>
    match skipBlanks cs with
    | '[' :: rest =>
      if room = 0 then none
      else
        match skipBlanks rest with
        | ']' :: rest => some (.list [], rest)
        | rest => (readItems bound (room - 1) rest).map fun (items, r) ↦ (.list items, r)
    | '\x7b' :: rest =>
      if room = 0 then none
      else
        match skipBlanks rest with
        | '\x7d' :: rest => some (.table [], rest)
        | rest => (readFields bound (room - 1) rest).map fun (fields, r) ↦ (.ofPairs fields, r)
    | rest => readAtom rest

def readItems : (bound room : Nat) → List Char → Option (List Datum × List Char)
  | 0, _, _ => none
  | bound + 1, room, cs => do
    let (d, rest) ← readValue bound room cs
    match skipBlanks rest with
    | ',' :: rest => (readItems bound room rest).map fun (ds, r) ↦ (d :: ds, r)
    | ']' :: rest => some ([d], rest)
    | _ => none

def readFields : (bound room : Nat) → List Char → Option (List (String × Datum) × List Char)
  | 0, _, _ => none
  | bound + 1, room, cs =>
    match skipBlanks cs with
    | '"' :: rest => do
      let (key, rest) ← readText rest
      match skipBlanks rest with
      | ':' :: rest =>
        let (d, rest) ← readValue bound room rest
        let field := (String.ofList key, d)
        match skipBlanks rest with
        | ',' :: rest => (readFields bound room rest).map fun (fields, r) ↦ (field :: fields, r)
        | '\x7d' :: rest => some ([field], rest)
        | _ => none
      | _ => none
    | _ => none

end

/-- Reads a document, which is one value, with no more than `room` values inside one another. Every
value takes up a character, so the length of the text bounds their number. -/
def readWithin? (room : Nat) (s : String) : Option Datum := do
  let (d, rest) ← readValue (2 * s.length + 2) room s.toList
  if skipBlanks rest = [] then some d else none

def read? (s : String) : Option Datum := readWithin? s.length s

end CovarianceSearch.Json
