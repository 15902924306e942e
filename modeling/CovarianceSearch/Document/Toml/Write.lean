import CovarianceSearch.Decimal.Text
import CovarianceSearch.Document.Datum
import CovarianceSearch.Document.Json.Write

namespace CovarianceSearch.Toml

/-- The length of the longest stretch of `c`, the last `run` characters before having been such. -/
def longestRun (c : Char) (run : Nat) : List Char → Nat
  | [] => run
  | d :: cs => if d = c then longestRun c (run + 1) cs else max run (longestRun c 0 cs)

/-- The stretches of quotes are counted in a byte each. -/
def isCountable (d : Datum) : Bool :=
  d.texts.all fun s ↦ ['"', '\''].all fun quote ↦ longestRun quote 0 s.toList < UInt8.size

def needsEscape (c : Char) : Bool :=
  (c.toNat < 0x20 && c ≠ '\t' && c ≠ '\n') || c.toNat = 0x7F

def escaped (c : Char) : List Char :=
  if c.toNat = 0x7F || (c.toNat < 0x20 && ¬ c.toNat ∈ [8, 9, 10, 12, 13]) then
    '\\' :: 'u' :: (Json.hexQuad c.toNat).map Char.toUpper
  else Json.escaped c

/-- A text with escapes. In several lines two double quotes in a row may stand as they are, of which
`run` precede. -/
def escapedText (isLong : Bool) (run : Nat) : List Char → List Char
  | [] => []
  | c :: cs =>
    if c = '"' && isLong && run < 2 then c :: escapedText isLong (run + 1) cs
    else if c = '\n' && isLong then c :: escapedText isLong 0 cs
    else escaped c ++ escapedText isLong 0 cs

inductive Quoting where
  | basic | literal | longBasic | longLiteral

/-- The plainest quotes that do without escapes, or quotes with escapes if there are none. -/
def Quoting.of (cs : List Char) : Quoting :=
  let control := cs.any needsEscape
  let lines := cs.contains '\n'
  let backslash := cs.contains '\\'
  let doubles := longestRun '"' 0 cs
  let singles := longestRun '\'' 0 cs
  if !control && !backslash && doubles = 0 && !lines then .basic
  else if !control && singles = 0 && !lines then .literal
  else if !control && !backslash && doubles ≤ 2 then .longBasic
  else if !control && singles ≤ 2 then .longLiteral
  else if lines then .longBasic
  else .basic

def textValue (s : String) : String :=
  let cs := s.toList
  let start := if cs.contains '\n' then "\n" else ""
  match Quoting.of cs with
  | .basic => "\"" ++ String.ofList (escapedText false 0 cs) ++ "\""
  | .literal => "'" ++ s ++ "'"
  | .longBasic => "\"\"\"" ++ start ++ String.ofList (escapedText true 0 cs) ++ "\"\"\""
  | .longLiteral => "'''" ++ start ++ s ++ "'''"

def scalar? : Datum → Option String
  | .bool b => some (if b then "true" else "false")
  | .integer n => if fitsWord n then some (toString n) else none
  | .real x => some (Decimal.Style.setting.text x)
  | .text s => some (textValue s)
  | .null | .list _ | .table _ => none

def listText : List String → String
  | [] => "[]"
  | [item] => "[" ++ item ++ "]"
  | items => "[\n" ++ String.join (items.map fun item ↦ "    " ++ item ++ ",\n") ++ "]"

def value? : Datum → Option String
  | .list items => (items.mapM scalar?).map listText
  | d => scalar? d

def line? : String × Datum → Option String
  | (_, .null) => some ""
  | (key, d) => (value? d).map fun text ↦ key ++ " = " ++ text ++ "\n"

def section? : String × Datum → Option String
  | (name, .table fields) =>
    (fields.mapM line?).map fun lines ↦ "[" ++ name ++ "]\n" ++ String.join lines
  | _ => none

def write? : Datum → Option String
  | .table sections => (sections.mapM section?).map ("\n".intercalate ·)
  | _ => none

end CovarianceSearch.Toml
