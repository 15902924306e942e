import CovarianceSearch.Decimal.Text
import CovarianceSearch.Document.Datum

namespace CovarianceSearch.Json

def hexQuad (n : Nat) : List Char :=
  let ds := Nat.toDigits 16 n
  List.replicate (4 - ds.length) '0' ++ ds

def escaped (c : Char) : List Char :=
  if c = '"' then ['\\', '"']
  else if c = '\\' then ['\\', '\\']
  else if c = '\n' then ['\\', 'n']
  else if c = '\r' then ['\\', 'r']
  else if c = '\t' then ['\\', 't']
  else if c.toNat = 8 then ['\\', 'b']
  else if c.toNat = 12 then ['\\', 'f']
  else if c.toNat < 0x20 then '\\' :: 'u' :: hexQuad c.toNat
  else [c]

def quoted (s : String) : String := "\"" ++ String.ofList (s.toList.flatMap escaped) ++ "\""

/-- Parts between brackets, on one line or, with a margin, on a line each. -/
def block (opening closing : String) (margin : Option String) (parts : List String) : String :=
  match margin, parts with
  | _, [] => opening ++ closing
  | none, _ => opening ++ ",".intercalate parts ++ closing
  | some m, _ =>
    opening ++ "\n" ++ m ++ "  " ++ (",\n" ++ m ++ "  ").intercalate parts ++ "\n" ++ m ++ closing

mutual

def write (margin : Option String) : Datum → String
  | .null => "null"
  | .bool b => if b then "true" else "false"
  | .integer n => toString n
  | .real x => Decimal.Style.data.text x
  | .text s => quoted s
  | .list items => block "[" "]" margin (writeItems (margin.map (· ++ "  ")) items)
  | .table fields => block "\x7b" "\x7d" margin (writeFields (margin.map (· ++ "  ")) fields)

def writeItems (margin : Option String) : List Datum → List String
  | [] => []
  | d :: ds => write margin d :: writeItems margin ds

def writeFields (margin : Option String) : List (String × Datum) → List String
  | [] => []
  | (k, d) :: fields =>
    (quoted k ++ (if margin.isSome then ": " else ":") ++ write margin d) ::
      writeFields margin fields

end

def compact (d : Datum) : String := write none d

def pretty (d : Datum) : String := write (some "") d

end CovarianceSearch.Json
