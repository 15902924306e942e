import CovarianceSearch.Document.Datum
import CovarianceSearch.Document.Json.Read
import CovarianceSearch.Text

namespace CovarianceSearch.Json5

def isLineEnd (c : Char) : Bool :=
  c = '\n' || c = '\r' || c.toNat = 0x2028 || c.toNat = 0x2029

def isSpace (c : Char) : Bool := (Text.isBlank c && c.toNat ≠ 0x85) || c.toNat = 0xFEFF

def closeComment : List Char → Option (List Char)
  | '*' :: '/' :: rest => some rest
  | _ :: rest => closeComment rest
  | [] => none

def skipFiller : (bound : Nat) → List Char → Option (List Char)
  | 0, _ => none
  | bound + 1, cs =>
    match cs.dropWhile isSpace with
    | '/' :: '/' :: rest => skipFiller bound (rest.dropWhile (!isLineEnd ·))
    | '/' :: '*' :: rest => (closeComment rest).bind (skipFiller bound)
    | rest => some rest

def skip (cs : List Char) : Option (List Char) := skipFiller (cs.length + 1) cs

def ofEscape? (c : Char) : Option Char :=
  match c with
  | '0' => some (.ofNat 0)
  | 'v' => some (.ofNat 11)
  | 'b' | 'f' | 'n' | 'r' | 't' => Json.ofEscape? c
  | c => if c.isDigit || c = 'x' || c = 'u' then none else some c

def readText (quote : Char) : List Char → Option (List Char × List Char)
  | '\\' :: 'u' :: a :: b :: c :: d :: '\\' :: 'u' :: e :: f :: g :: h :: rest => do
    let n ← Json.readHex 0 [a, b, c, d]
    match Json.charOfCode? n with
    | some char =>
      let (cs, r) ← readText quote ('\\' :: 'u' :: e :: f :: g :: h :: rest)
      return (char :: cs, r)
    | none =>
      let char ← Json.charOfPair? n (← Json.readHex 0 [e, f, g, h])
      let (cs, r) ← readText quote rest
      return (char :: cs, r)
  | '\\' :: 'u' :: a :: b :: c :: d :: rest => do
    let char ← Json.charOfCode? (← Json.readHex 0 [a, b, c, d])
    let (cs, r) ← readText quote rest
    return (char :: cs, r)
  | '\\' :: 'x' :: a :: b :: rest => do
    let char ← Json.charOfCode? (← Json.readHex 0 [a, b])
    let (cs, r) ← readText quote rest
    return (char :: cs, r)
  | '\\' :: '\r' :: '\n' :: rest => readText quote rest
  | '\\' :: c :: rest =>
    if isLineEnd c then readText quote rest
    else do
      let char ← ofEscape? c
      let (cs, r) ← readText quote rest
      return (char :: cs, r)
  | c :: rest =>
    if c = quote then some ([], rest)
    else if isLineEnd c then none
    else (readText quote rest).map fun (cs, r) ↦ (c :: cs, r)
  | [] => none

def isNameChar (c : Char) : Bool :=
  c.isAlphanum || c = '$' || c = '_' || (128 ≤ c.toNat && !isSpace c)

def readNameChars : List Char → Option (List Char × List Char)
  | '\\' :: 'u' :: a :: b :: c :: d :: rest => do
    let char ← Json.charOfCode? (← Json.readHex 0 [a, b, c, d])
    let (cs, r) ← readNameChars rest
    return (char :: cs, r)
  | c :: rest =>
    if isNameChar c then (readNameChars rest).map fun (cs, r) ↦ (c :: cs, r)
    else some ([], c :: rest)
  | [] => some ([], [])

/-- A key is a text or a name, which does not begin with a digit. -/
def readKey (cs : List Char) : Option (String × List Char) := do
  let (key, rest) ← match cs with
    | '"' :: rest => readText '"' rest
    | '\'' :: rest => readText '\'' rest
    | c :: _ =>
      if c.isDigit || !(isNameChar c || c = '\\') then none else readNameChars cs
    | [] => none
  return (String.ofList key, rest)

def isWordChar (c : Char) : Bool := isNameChar c || c = '+' || c = '-' || c = '.'

/-- A number with a point or a power of ten is a float, any other fits into 64 bits. -/
def ofNumeral? (n : Decimal.Numeral) : Option Datum :=
  let isRead := match n.whole with
    | [] => n.hasDigits
    | [_] => true
    | c :: _ => c ≠ '0'
  if !isRead then none
  else if n.isWhole then
    if fitsWord n.toInt then some (.integer n.toInt) else none
  else if n.toFloat.isFinite then some (.real n.toFloat)
  else none

def ofHex? (ds : List Char) : Option Datum := do
  let n ← Json.readHex 0 ds
  if ds.isEmpty || UInt32.size ≤ n then none else some (.integer n)

def ofWord? (word : List Char) : Option Datum :=
  match String.ofList word with
  | "null" => some .null
  | "true" => some (.bool true)
  | "false" => some (.bool false)
  | "Infinity" => some (.real (1.0 / 0.0))
  | "-Infinity" => some (.real (-1.0 / 0.0))
  | "NaN" | "-NaN" => some (.real (0.0 / 0.0))
  | _ =>
    match word with
    | '0' :: 'x' :: ds | '0' :: 'X' :: ds => ofHex? ds
    | cs => (Decimal.Numeral.read? cs).bind ofNumeral?

def readAtom (cs : List Char) : Option (Datum × List Char) :=
  match cs with
  | '"' :: rest => (readText '"' rest).map fun (s, r) ↦ (.text (String.ofList s), r)
  | '\'' :: rest => (readText '\'' rest).map fun (s, r) ↦ (.text (String.ofList s), r)
  | cs => (ofWord? (cs.takeWhile isWordChar)).map fun d ↦ (d, cs.dropWhile isWordChar)

mutual

def readValue : (bound : Nat) → List Char → Option (Datum × List Char)
  | 0, _ => none
  | bound + 1, cs => do
    match ← skip cs with
    | '[' :: rest =>
      match ← skip rest with
      | ']' :: rest => return (.list [], rest)
      | rest =>
        let (items, r) ← readItems bound rest
        return (.list items, r)
    | '\x7b' :: rest =>
      match ← skip rest with
      | '\x7d' :: rest => return (.table [], rest)
      | rest =>
        let (fields, r) ← readFields bound rest
        return (.ofPairs fields, r)
    | rest => readAtom rest

def readItems : (bound : Nat) → List Char → Option (List Datum × List Char)
  | 0, _ => none
  | bound + 1, cs => do
    let (d, rest) ← readValue bound cs
    match ← skip rest with
    | ',' :: rest =>
      match ← skip rest with
      | ']' :: rest => return ([d], rest)
      | rest =>
        let (ds, r) ← readItems bound rest
        return (d :: ds, r)
    | ']' :: rest => return ([d], rest)
    | _ => none

def readFields : (bound : Nat) → List Char → Option (List (String × Datum) × List Char)
  | 0, _ => none
  | bound + 1, cs => do
    let (key, rest) ← readKey cs
    match ← skip rest with
    | ':' :: rest =>
      let (d, rest) ← readValue bound rest
      match ← skip rest with
      | ',' :: rest =>
        match ← skip rest with
        | '\x7d' :: rest => return ([(key, d)], rest)
        | rest =>
          let (fields, r) ← readFields bound rest
          return ((key, d) :: fields, r)
      | '\x7d' :: rest => return ([(key, d)], rest)
      | _ => none
    | _ => none

end

/-- Reads a document, which is one value. It may hold comments, names without quotes, a comma at
the end of a list, and more ways to write a number. -/
def read? (s : String) : Option Datum := do
  let (d, rest) ← readValue (2 * s.length + 2) s.toList
  if (← skip rest) = [] then some d else none

end CovarianceSearch.Json5
