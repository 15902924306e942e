import CovarianceSearch.Document.Json.Read

namespace CovarianceSearch.Ron

/-- The characters with the Unicode property Pattern_White_Space. -/
def isSpace (c : Char) : Bool :=
  let n := c.toNat
  (9 ≤ n && n ≤ 13) || n = 0x20 || n = 0x85 || n = 0x200E || n = 0x200F || n = 0x2028 || n = 0x2029

/-- The text behind a comment between slashes and stars, inside of which others are open. -/
def closeComment (inner : Nat) : List Char → Option (List Char)
  | '*' :: '/' :: rest =>
    match inner with
    | 0 => some rest
    | inner + 1 => closeComment inner rest
  | '/' :: '*' :: rest => closeComment (inner + 1) rest
  | _ :: rest => closeComment inner rest
  | [] => none

def skipFiller : (bound : Nat) → List Char → Option (List Char)
  | 0, _ => none
  | bound + 1, cs =>
    match cs.dropWhile isSpace with
    | '/' :: '/' :: rest => skipFiller bound (rest.dropWhile (· ≠ '\n'))
    | '/' :: '*' :: rest => (closeComment 0 rest).bind (skipFiller bound)
    | rest => some rest

def skip (cs : List Char) : Option (List Char) := skipFiller (cs.length + 1) cs

def skipComma (cs : List Char) : Option (Bool × List Char) := do
  match ← skip cs with
  | ',' :: rest => return (true, ← skip rest)
  | rest => return (false, rest)

def readEscape : List Char → Option (Char × List Char)
  | 'x' :: a :: b :: rest => do
    return (← Json.charOfCode? (← Json.readHex 0 [a, b]), rest)
  | 'u' :: '\x7b' :: rest =>
    let ds := rest.takeWhile (· ≠ '\x7d')
    if ds.isEmpty || 6 < ds.length then none
    else do
      let char ← Json.charOfCode? (← Json.readHex 0 ds)
      match rest.drop ds.length with
      | _ :: rest => return (char, rest)
      | [] => none
  | '0' :: rest => some (.ofNat 0, rest)
  | '\'' :: rest => some ('\'', rest)
  | '"' :: rest => some ('"', rest)
  | '\\' :: rest => some ('\\', rest)
  | 'n' :: rest => some ('\n', rest)
  | 'r' :: rest => some ('\r', rest)
  | 't' :: rest => some ('\t', rest)
  | _ => none

def readPlain : (bound : Nat) → List Char → Option (List Char × List Char)
  | 0, _ => none
  | bound + 1, cs =>
    match cs with
    | '"' :: rest => some ([], rest)
    | '\\' :: rest => do
      let (char, rest) ← readEscape rest
      let (cs, r) ← readPlain bound rest
      return (char :: cs, r)
    | c :: rest => (readPlain bound rest).map fun (cs, r) ↦ (c :: cs, r)
    | [] => none

def readRaw (ending : List Char) : List Char → Option (List Char × List Char)
  | [] => none
  | c :: rest =>
    if ending.isPrefixOf (c :: rest) then some ([], (c :: rest).drop ending.length)
    else (readRaw ending rest).map fun (cs, r) ↦ (c :: cs, r)

/-- Reads a text in quotes, one without escapes, whose quotes may stand between number signs, or a
single character. -/
def readText (cs : List Char) : Option (List Char × List Char) :=
  match cs with
  | '"' :: rest => readPlain (rest.length + 1) rest
  | 'r' :: rest =>
    let signs := rest.takeWhile (· = '#')
    match rest.drop signs.length with
    | '"' :: rest => readRaw ('"' :: signs) rest
    | _ => none
  | '\'' :: '\\' :: rest => do
    match ← readEscape rest with
    | (c, '\'' :: rest) => return ([c], rest)
    | _ => none
  | '\'' :: c :: '\'' :: rest => some ([c], rest)
  | _ => none

def isNameChar (c : Char) : Bool := c.isAlphanum || c = '_' || (128 ≤ c.toNat && !isSpace c)

def readName (cs : List Char) : Option (String × List Char) :=
  let isRawChar (c : Char) := isNameChar c || c = '.' || c = '+' || c = '-'
  match cs with
  | 'r' :: '#' :: rest =>
    let name := rest.takeWhile isRawChar
    if name.isEmpty then none else some (String.ofList name, rest.drop name.length)
  | c :: _ =>
    let name := cs.takeWhile isNameChar
    if c.isDigit || name.isEmpty then none
    else some (String.ofList name, cs.drop name.length)
  | [] => none

end CovarianceSearch.Ron
