import CovarianceSearch.Document.Json.Read
import CovarianceSearch.Document.Toml.Dialect

namespace CovarianceSearch.Toml

def isSpace (c : Char) : Bool := c = ' ' || c = '\t'

def skipSpaces (cs : List Char) : List Char := cs.dropWhile isSpace

def isControl (c : Char) : Bool := (c.toNat < 0x20 && c ≠ '\t') || c.toNat = 0x7F

def skipFiller (inComment : Bool) : List Char → List Char
  | '\n' :: cs => skipFiller false cs
  | '\r' :: '\n' :: cs => skipFiller false cs
  | c :: cs =>
    if inComment then if isControl c then c :: cs else skipFiller true cs
    else if c = '#' then skipFiller true cs
    else if isSpace c then skipFiller false cs
    else c :: cs
  | [] => []

variable (t : Dialect)

def ofEscape? (c : Char) : Option Char :=
  if c = '/' then none
  else if c = 'e' then if t.isRecent then some (.ofNat 0x1B) else none
  else Json.ofEscape? c

def ofShortCode? (a b : Char) : Option Char :=
  if t.isRecent then (Json.readHex 0 [a, b]).bind Json.charOfCode? else none

def readBasic : List Char → Option (List Char × List Char)
  | '"' :: rest => some ([], rest)
  | '\\' :: 'x' :: a :: b :: rest => do
    let char ← ofShortCode? t a b
    let (cs, r) ← readBasic rest
    return (char :: cs, r)
  | '\\' :: 'u' :: a :: b :: c :: d :: rest => do
    let char ← Json.charOfCode? (← Json.readHex 0 [a, b, c, d])
    let (cs, r) ← readBasic rest
    return (char :: cs, r)
  | '\\' :: 'U' :: a :: b :: c :: d :: e :: f :: g :: h :: rest => do
    let char ← Json.charOfCode? (← Json.readHex 0 [a, b, c, d, e, f, g, h])
    let (cs, r) ← readBasic rest
    return (char :: cs, r)
  | '\\' :: c :: rest => do
    let char ← ofEscape? t c
    let (cs, r) ← readBasic rest
    return (char :: cs, r)
  | c :: rest =>
    if isControl c then none else (readBasic rest).map fun (cs, r) ↦ (c :: cs, r)
  | [] => none

def readLiteral : List Char → Option (List Char × List Char)
  | '\'' :: rest => some ([], rest)
  | c :: rest =>
    if isControl c then none else (readLiteral rest).map fun (cs, r) ↦ (c :: cs, r)
  | [] => none

def endsInBlanks (cs : List Char) : Bool :=
  match skipSpaces cs with
  | '\n' :: _ => true
  | '\r' :: '\n' :: _ => true
  | _ => false

/-- The body of a text in three double quotes, and what follows it. After a backslash at the end
of a line all blanks are skipped. -/
def readLongBasic (skipping : Bool) : List Char → Option (List Char × List Char)
  | '"' :: '"' :: '"' :: '"' :: '"' :: rest => some (['"', '"'], rest)
  | '"' :: '"' :: '"' :: '"' :: rest => some (['"'], rest)
  | '"' :: '"' :: '"' :: rest => some ([], rest)
  | '\\' :: 'x' :: a :: b :: rest => do
    let char ← ofShortCode? t a b
    let (cs, r) ← readLongBasic false rest
    return (char :: cs, r)
  | '\\' :: 'u' :: a :: b :: c :: d :: rest => do
    let char ← Json.charOfCode? (← Json.readHex 0 [a, b, c, d])
    let (cs, r) ← readLongBasic false rest
    return (char :: cs, r)
  | '\\' :: 'U' :: a :: b :: c :: d :: e :: f :: g :: h :: rest => do
    let char ← Json.charOfCode? (← Json.readHex 0 [a, b, c, d, e, f, g, h])
    let (cs, r) ← readLongBasic false rest
    return (char :: cs, r)
  | '\\' :: c :: rest =>
    if endsInBlanks (c :: rest) then readLongBasic true rest
    else do
      let char ← ofEscape? t c
      let (cs, r) ← readLongBasic false rest
      return (char :: cs, r)
  | '\r' :: '\n' :: rest =>
    if skipping then readLongBasic true rest
    else (readLongBasic false rest).map fun (cs, r) ↦ (t.lineEnd ++ cs, r)
  | c :: rest =>
    if skipping && (isSpace c || c = '\n') then readLongBasic true rest
    else if isControl c && c ≠ '\n' then none
    else (readLongBasic false rest).map fun (cs, r) ↦ (c :: cs, r)
  | [] => none

def readLongLiteral : List Char → Option (List Char × List Char)
  | '\'' :: '\'' :: '\'' :: '\'' :: '\'' :: rest => some (['\'', '\''], rest)
  | '\'' :: '\'' :: '\'' :: '\'' :: rest => some (['\''], rest)
  | '\'' :: '\'' :: '\'' :: rest => some ([], rest)
  | '\r' :: '\n' :: rest => (readLongLiteral rest).map fun (cs, r) ↦ (t.lineEnd ++ cs, r)
  | c :: rest =>
    if isControl c && c ≠ '\n' then none
    else (readLongLiteral rest).map fun (cs, r) ↦ (c :: cs, r)
  | [] => none

/-- A line end right behind the opening quotes does not count. -/
def skipLineEnd : List Char → List Char
  | '\n' :: rest => rest
  | '\r' :: '\n' :: rest => rest
  | cs => cs

def readText : List Char → Option (List Char × List Char)
  | '"' :: '"' :: '"' :: rest => readLongBasic t false (skipLineEnd rest)
  | '"' :: rest => readBasic t rest
  | '\'' :: '\'' :: '\'' :: rest => readLongLiteral t (skipLineEnd rest)
  | '\'' :: rest => readLiteral rest
  | _ => none

def isBare (c : Char) : Bool := c.isAlphanum || c = '_' || c = '-'

def readKey (cs : List Char) : Option (String × List Char) :=
  match cs with
  | '"' :: rest => (readBasic t rest).map fun (k, r) ↦ (String.ofList k, r)
  | '\'' :: rest => (readLiteral rest).map fun (k, r) ↦ (String.ofList k, r)
  | _ =>
    let word := cs.takeWhile isBare
    if word.isEmpty then none else some (String.ofList word, cs.dropWhile isBare)

def readKeys : (bound : Nat) → List Char → Option (List String × List Char)
  | 0, _ => none
  | bound + 1, cs => do
    let (key, rest) ← readKey t (skipSpaces cs)
    match skipSpaces rest with
    | '.' :: rest => (readKeys bound rest).map fun (keys, r) ↦ (key :: keys, r)
    | rest => return ([key], rest)

def readPath (cs : List Char) : Option (List String × List Char) := readKeys t t.pathLength cs

end CovarianceSearch.Toml
