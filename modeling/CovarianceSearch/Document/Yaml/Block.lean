import CovarianceSearch.Document.Yaml.Scalar

namespace CovarianceSearch.Yaml

inductive Chomp where
  | strip | clip | keep
  deriving DecidableEq

/-- How the first line of such a text says that it is to be read: what becomes of the line ends,
and by how much it is indented. -/
def ofMarks? (marks : List Char) : Option (Chomp × Nat) :=
  let chomp? (c : Char) :=
    if c = '+' then some Chomp.keep else if c = '-' then some .strip else none
  let width? (c : Char) := if c = '0' then none else (Json.hexDigit? c)
  match marks with
  | [] => some (.clip, 0)
  | [a] => match chomp? a with
    | some chomp => some (chomp, 0)
    | none => (width? a).map (.clip, ·)
  | [a, b] => match chomp? a with
    | some chomp => (width? b).map (chomp, ·)
    | none => (width? a).bind fun n ↦ (chomp? b).map (·, n)
  | _ => none

def skipIndent (width : Nat) : (bound : Nat) → Cursor → Nat × Cursor
  | 0, c => (0, c)
  | bound + 1, c =>
    let c := c.skip ((c.rest.take (width - c.column)).takeWhile (· = ' ')).length
    if c.isAtBreak then
      let (n, c) := skipIndent width bound c.skipBreak
      (n + 1, c)
    else (0, c)

def skipMargin : (bound : Nat) → Cursor → Nat × Nat × Cursor
  | 0, c => (0, 0, c)
  | bound + 1, c =>
    let c := c.skipWhile (· = ' ')
    if c.isAtBreak then
      let (n, column, r) := skipMargin bound c.skipBreak
      (n + 1, max c.column column, r)
    else (0, c.column, c)

/-- Reads lines that are indented by `width`, behind a line end and `empty` more. Gives what
follows them in the same way. Line ends are folded between lines that do not begin with a blank. -/
def readLines (isFolded : Bool) (width : Nat) : (bound : Nat) → (isBroken wasBlank : Bool) →
    (empty : Nat) → Cursor → List Char × Bool × Nat × Cursor
  | 0, isBroken, _, empty, c => ([], isBroken, empty, c)
  | bound + 1, isBroken, wasBlank, empty, c =>
    if c.isAtEnd || c.column ≠ width then ([], isBroken, empty, c)
    else
      let gap : List Char :=
        if isFolded && isBroken && !wasBlank && !c.isAtBlank then fold [] (empty + 1)
        else .replicate (isBroken.toNat + empty) '\n'
      let line := c.rest.takeWhile (!isBreak ·)
      let r := c.skip line.length
      if r.isAtEnd then (gap ++ line, false, 0, r)
      else
        let (empty, r) := skipIndent width r.rest.length r.skipBreak
        let (cs, isBroken, empty, r) := readLines isFolded width bound true c.isAtBlank empty r
        (gap ++ line ++ cs, isBroken, empty, r)

def chomped (chomp : Chomp) (isBroken : Bool) (empty width : Nat) (c : Cursor) : List Char :=
  let last : List Char := if isBroken then ['\n'] else []
  let missing : List Char := if c.isAtEnd && max width 1 ≤ c.column then ['\n'] else []
  match chomp with
  | .strip => []
  | .clip => last ++ missing
  | .keep => last ++ missing ++ .replicate empty '\n'

def readBlock (isFolded : Bool) (indent : Int) (c : Cursor) : Option (List Char × Cursor) := do
  let marks := c.rest.takeWhile fun c ↦ c = '+' || c = '-' || c.isDigit
  let (chomp, extra) ← ofMarks? marks
  let c ← (c.skip marks.length).skipLine
  if !c.isAtEnd && !c.isAtBreak then none
  else
    let hasBreak := c.isAtBreak
    let c := if hasBreak then c.skipBreak else c
    if c.rest.head? = some '\t' then none
    else
      let bound := c.rest.length + 1
      let (width, empty, c) :=
        if extra = 0 then
          let (empty, column, c) := skipMargin bound c
          (max column (indent + 1).toNat, empty, c)
        else
          let width := (max indent 0).toNat + extra
          let (empty, c) := skipIndent width bound c
          (width, empty, c)
      if c.isAtEnd then
        let last : List Char := if hasBreak then ['\n'] else []
        match chomp with
        | .strip => return ([], c)
        | .clip => return (last, c)
        | .keep => return (if empty = 0 then last else .replicate empty '\n', c)
      else if c.column < width && indent < c.column then none
      else
        let (cs, isBroken, empty, c) := readLines isFolded width bound false false empty c
        return (cs ++ chomped chomp isBroken empty width c, c)

end CovarianceSearch.Yaml
