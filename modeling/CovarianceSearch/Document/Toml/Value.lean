import CovarianceSearch.Document.Datum
import CovarianceSearch.Document.Toml.Outline
import CovarianceSearch.Document.Toml.Text
import CovarianceSearch.Document.Toml.Time

namespace CovarianceSearch.Toml

/-- Takes out underscores, each of which has to stand between two digits. -/
def joinDigits? (isDigit : Char → Bool) : List Char → Option (List Char)
  | a :: '_' :: b :: rest =>
    if isDigit a && isDigit b then (joinDigits? isDigit (b :: rest)).map (a :: ·) else none
  | c :: rest => if c = '_' then none else (joinDigits? isDigit rest).map (c :: ·)
  | [] => some []

def inWord? (n : Int) : Option Datum :=
  if fitsWord n then some (.integer n) else none

def readRadix? (radix : Nat) (cs : List Char) : Option Datum := do
  let ds ← joinDigits? (fun c ↦ (Json.hexDigit? c).any (· < radix)) cs
  let values ← ds.mapM Json.hexDigit?
  if values.isEmpty || values.any (radix ≤ ·) then none
  else
    let n : Nat := values.foldl (fun acc v ↦ radix * acc + v) 0
    inWord? n

variable (t : Dialect)

def readDecimal? (cs : List Char) : Option Datum := do
  let n ← Decimal.Numeral.read? (← joinDigits? (·.isDigit) cs)
  if !n.isStrict then none
  else if n.isWhole then inWord? n.toInt
  else if t.accepts n.toFloat then some (.real n.toFloat)
  else none

def ofWord? (word : List Char) : Option Datum :=
  match String.ofList word with
  | "true" => some (.bool true)
  | "false" => some (.bool false)
  | "inf" | "+inf" => some (.real (1.0 / 0.0))
  | "-inf" => some (.real (-1.0 / 0.0))
  | "nan" | "+nan" | "-nan" => some (.real (0.0 / 0.0))
  | _ =>
    match word with
    | '0' :: 'x' :: ds => readRadix? 16 ds
    | '0' :: 'o' :: ds => readRadix? 8 ds
    | '0' :: 'b' :: ds => readRadix? 2 ds
    | ds => readDecimal? t ds

def isWordChar (c : Char) : Bool := c.isAlphanum || c = '_' || c = '+' || c = '-' || c = '.'

def readScalar (cs : List Char) : Option (Datum × List Char) :=
  match cs with
  | '"' :: _ | '\'' :: _ => (readText t cs).map fun (s, r) ↦ (.text (String.ofList s), r)
  | _ =>
    match readTime t cs with
    | some (s, r) => some (t.ofTime s, r)
    | none => (ofWord? t (cs.takeWhile isWordChar)).map fun d ↦ (d, cs.dropWhile isWordChar)

def skipInside (cs : List Char) : List Char :=
  if t.isRecent then skipFiller false cs else skipSpaces cs

mutual

/-- Reads a value in which `room` more are nested at most. No more of them follow one another than
`bound` says. -/
def readValue : (bound room : Nat) → List Char → Option (Datum × List Char)
  | 0, _, _ => none
  | bound + 1, room, cs =>
    match cs with
    | '[' :: rest =>
      if room = 0 then none
      else (readItems bound (room - 1) rest).map fun (items, r) ↦ (.list items, r)
    | '\x7b' :: rest =>
      if room = 0 then none
      else
        match skipInside t rest with
        | '\x7d' :: rest => some (.table [], rest)
        | rest => (readLeaves bound (room - 1) [] rest).map fun (b, r) ↦ (b.toDatum, r)
    | cs => readScalar t cs

def readItems : (bound room : Nat) → List Char → Option (List Datum × List Char)
  | 0, _, _ => none
  | bound + 1, room, cs =>
    match skipFiller false cs with
    | ']' :: rest => some ([], rest)
    | rest => do
      let (d, rest) ← readValue bound room rest
      match skipFiller false rest with
      | ',' :: rest => (readItems bound room rest).map fun (ds, r) ↦ (d :: ds, r)
      | ']' :: rest => some ([d], rest)
      | _ => none

def readLeaves : (bound room : Nat) → (b : Branches) → List Char →
    Option (Branches × List Char)
  | 0, _, _, _ => none
  | bound + 1, room, b, cs => do
    let (path, rest) ← readPath t cs
    match skipInside t rest with
    | '=' :: rest =>
      let (d, rest) ← readValue bound room (skipInside t rest)
      let b ← b.addAlong? t.adopts path d
      match skipInside t rest with
      | ',' :: rest =>
        match skipInside t rest with
        | '\x7d' :: rest => if t.isRecent then some (b, rest) else none
        | rest => readLeaves bound room b rest
      | '\x7d' :: rest => some (b, rest)
      | _ => none
    | _ => none

end

end CovarianceSearch.Toml
