import CovarianceSearch.Document.Json.Read
import CovarianceSearch.Text

namespace CovarianceSearch.Ini

def ofEscape : Char → List Char
  | '0' => [.ofNat 0]
  | 'a' => [.ofNat 7]
  | 'b' => [.ofNat 8]
  | 't' => ['\t']
  | 'r' => ['\r']
  | 'n' => ['\n']
  | '\n' => []
  | c => [c]

def ofCode? (a b c d : Char) : Option Char :=
  (Json.readHex 0 (if a = '+' then [b, c, d] else [a, b, c, d])).bind Json.charOfCode?

/-- Reads up to a character at which the text ends, or also, if `isLast` says so, up to the end of
the document. -/
def readUntil (isEnd : Char → Bool) (isLast : Bool) : List Char → Option (List Char × List Char)
  | [] => if isLast then some ([], []) else none
  | '\\' :: 'x' :: a :: b :: c :: d :: rest => do
    let char ← ofCode? a b c d
    let (cs, r) ← readUntil isEnd isLast rest
    return (char :: cs, r)
  | ['\\'] | '\\' :: 'x' :: _ => none
  | '\\' :: c :: rest => (readUntil isEnd isLast rest).map fun (cs, r) ↦ (ofEscape c ++ cs, r)
  | c :: rest =>
    if isEnd c then some ([], c :: rest)
    else (readUntil isEnd isLast rest).map fun (cs, r) ↦ (c :: cs, r)

def isLineEnd (c : Char) : Bool := c = '\n' || c = '\r'

def readParts : (bound : Nat) → List Char → Option (List Char × List Char)
  | 0, _ => none
  | bound + 1, cs =>
    match cs with
    | '"' :: rest | '\'' :: rest => do
      let quote := cs.head?
      let (part, rest) ← readUntil (some · = quote) false rest
      let (parts, r) ← readParts bound (rest.drop 1)
      return (part ++ parts, r)
    | cs => readUntil isLineEnd true cs

def trimmed (cs : List Char) : String :=
  String.ofList ((cs.dropWhile Text.isBlank).reverse.dropWhile Text.isBlank).reverse

def readValue (cs : List Char) : Option (String × List Char) :=
  let cs := cs.dropWhile fun c ↦ Text.isBlank c && !isLineEnd c
  (readParts (cs.length + 1) cs).map fun (value, r) ↦ (trimmed value, r)

inductive Entry where
  | heading (name : String)
  | field (key value : String)

def readEntries : (bound : Nat) → (isFirst : Bool) → List Char → Option (List Entry)
  | 0, _, _ => none
  | bound + 1, isFirst, cs =>
    match cs with
    | [] => some []
    | '\n' :: rest => readEntries bound true rest
    | '[' :: rest => do
      let (name, rest) ← readUntil (· = ']') false rest
      return .heading (trimmed name) :: (← readEntries bound false (rest.drop 1))
    | c :: rest =>
      if Text.isBlank c then readEntries bound false rest
      else if c = ';' || c = '#' then
        if isFirst then readEntries bound false (rest.dropWhile (· ≠ '\n')) else none
      else do
        let (key, rest) ← readUntil (fun c ↦ c = '=' || c = ':') false cs
        let (value, rest) ← readValue (rest.drop 1)
        if (trimmed key).isEmpty then none
        else return .field (trimmed key) value :: (← readEntries bound false rest)

/-- The table of all fields, in which those behind a heading form a table of its name. The last
heading of a name counts, and so does the last field of a name. -/
def ofEntries (heading : Option String) (fields : List (String × Datum)) :
    List Entry → List (String × Datum)
  | [] => fields
  | .heading name :: entries =>
    ofEntries (some name) (Datum.setField name (.table []) fields) entries
  | .field key value :: entries =>
    let fields := match heading with
      | none => Datum.setField key (.text value) fields
      | some name => match fields.lookup name with
        | some (.table inner) =>
          Datum.setField name (.table (Datum.setField key (.text value) inner)) fields
        | _ => fields
    ofEntries heading fields entries

/-- Reads a document, in which every value is a text. -/
def read? (s : String) : Option Datum :=
  (readEntries (s.length + 1) true s.toList).map fun entries ↦ .table (ofEntries none [] entries)

end CovarianceSearch.Ini
