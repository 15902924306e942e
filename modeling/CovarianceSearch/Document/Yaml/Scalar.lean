import CovarianceSearch.Document.Json.Read
import CovarianceSearch.Document.Yaml.Cursor

namespace CovarianceSearch.Yaml

/-- Skips blanks and line ends, and gives the blanks before the first line end and the number of
line ends. Behind a line end, a tab to the left of `indent` is an error, unless the line is empty
and `isPlain` says so. -/
def readGap (isPlain : Bool) (indent : Int) : (bound : Nat) → (isBroken : Bool) → Cursor →
    Option (List Char × Nat × Cursor)
  | 0, _, _ => none
  | bound + 1, isBroken, c =>
    match c.rest with
    | [] => some ([], 0, c)
    | char :: _ =>
      if isBreak char then
        (readGap isPlain indent bound true c.skipBreak).map fun (_, n, r) ↦ ([], n + 1, r)
      else if !isBlank char then some ([], 0, c)
      else if isBroken && char = '\t' && c.column < indent then
        if isPlain then do
          let c ← c.skipLine
          if c.isAtEnd || c.isAtBreak then readGap isPlain indent bound true c else none
        else none
      else (readGap isPlain indent bound isBroken (c.skip 1)).map fun (blanks, n, r) ↦
        (char :: blanks, n, r)

/-- What stands for a gap in a text. A single line end is folded into a blank, of more than one
the first does not count. -/
def fold (blanks : List Char) : (breaks : Nat) → List Char
  | 0 => blanks
  | 1 => [' ']
  | n + 1 => .replicate n '\n'

def readEscape (cs : List Char) : Option (Char × Nat) :=
  let ofCode (n : Nat) (cs : List Char) := if cs.length < n then none
    else ((Json.readHex 0 (cs.take n)).bind Json.charOfCode?).map (·, n + 1)
  match cs with
  | 'x' :: rest => ofCode 2 rest
  | 'u' :: rest => ofCode 4 rest
  | 'U' :: rest => ofCode 8 rest
  | c :: _ =>
    match c with
    | '0' => some (.ofNat 0, 1)
    | 'a' => some (.ofNat 7, 1)
    | '\t' => some ('\t', 1)
    | 'v' => some (.ofNat 0x0B, 1)
    | 'e' => some (.ofNat 0x1B, 1)
    | ' ' => some (' ', 1)
    | 'N' => some (.ofNat 0x85, 1)
    | '_' => some (.ofNat 0xA0, 1)
    | 'L' => some (.ofNat 0x2028, 1)
    | 'P' => some (.ofNat 0x2029, 1)
    | c => (Json.ofEscape? c).map (·, 1)
  | [] => none

/-- Reads the rest of a text in quotes. A quote is written twice inside single quotes, and double
quotes have escapes, also for the ends of lines. -/
def readQuoted (quote : Char) (indent : Int) : (bound : Nat) → Cursor →
    Option (List Char × Cursor)
  | 0, _ => none
  | bound + 1, c =>
    if c.isAtDocument || c.column < indent then none
    else
      match c.rest with
      | [] => none
      | char :: rest =>
        if isBlank char || isBreak char then do
          let (blanks, breaks, c) ← readGap false indent (c.rest.length + 1) false c
          let (cs, r) ← readQuoted quote indent bound c
          return (fold blanks breaks ++ cs, r)
        else if char = quote then
          if quote = '\'' && rest.head? = some '\'' then
            (readQuoted quote indent bound (c.skip 2)).map fun (cs, r) ↦ ('\'' :: cs, r)
          else some ([], c.skip 1)
        else if char = '\\' && quote = '"' then
          if rest.head?.any isBreak then do
            let c := (c.skip 1).skipBreak
            let (_, breaks, c) ← readGap false indent (c.rest.length + 1) true c
            let (cs, r) ← readQuoted quote indent bound c
            return (.replicate breaks '\n' ++ cs, r)
          else do
            let (char, n) ← readEscape rest
            let (cs, r) ← readQuoted quote indent bound (c.skip (n + 1))
            return (char :: cs, r)
        else (readQuoted quote indent bound (c.skip 1)).map fun (cs, r) ↦ (char :: cs, r)

/-- The longest word without quotes at the front. A colon ends it before a blank, and inside of
brackets every mark of theirs does. -/
def readWord (inFlow : Bool) : List Char → List Char
  | [] => []
  | c :: rest =>
    let isOver := isBlank c || isBreak c || inFlow && isFlow c ||
      c = ':' && (endsWord rest || inFlow && rest.head?.any isFlow)
    if isOver then [] else c :: readWord inFlow rest

def readPlain (inFlow : Bool) (indent : Int) : (bound : Nat) → Cursor →
    Option (List Char × Cursor)
  | 0, _ => none
  | bound + 1, c =>
    if c.isLeading && c.isAtDocument || c.rest.head? = some '#' then some ([], c)
    else if inFlow && c.rest.head? = some '-' && (c.rest.drop 1).head?.any isFlow then none
    else
      let word := readWord inFlow c.rest
      let c := c.skip word.length
      if c.isAtBlank || c.isAtBreak then do
        let (blanks, breaks, c) ← readGap true indent (c.rest.length + 1) false c
        if !inFlow && c.column < indent then return (word, c)
        else
          let (cs, r) ← readPlain inFlow indent bound c
          return (if cs.isEmpty then word else word ++ fold blanks breaks ++ cs, r)
      else some (word, c)

end CovarianceSearch.Yaml
