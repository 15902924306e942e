import CovarianceSearch.Document.Toml.Value
import CovarianceSearch.Text

namespace CovarianceSearch.Toml

def endLine (cs : List Char) : Option (List Char) :=
  match skipSpaces cs with
  | [] => some []
  | '\n' :: rest => some rest
  | '\r' :: '\n' :: rest => some rest
  | '#' :: rest => some (skipFiller true rest)
  | _ => none

variable (t : Dialect)

def readHeader (cs : List Char) : Option (Bool × List String × List Char) :=
  match cs with
  | '[' :: rest => do
    match ← readPath t rest with
    | (path, ']' :: ']' :: rest) => return (true, path, rest)
    | _ => none
  | rest => do
    match ← readPath t rest with
    | (path, ']' :: rest) => return (false, path, rest)
    | _ => none

def readLines : (bound : Nat) → (header : List String) → Branches → List Char → Option Branches
  | 0, _, _, _ => none
  | bound + 1, header, b, cs =>
    match skipFiller false cs with
    | [] => some b
    | '[' :: rest => do
      let (isItem, path, rest) ← readHeader t rest
      readLines bound path (← b.addHeader? isItem path) (← endLine rest)
    | rest => do
      let (path, rest) ← readPath t rest
      match rest with
      | '=' :: rest =>
        let (d, rest) ← readValue t bound t.nesting (skipSpaces rest)
        readLines bound header (← b.addBelow? t.adopts header path d) (← endLine rest)
      | _ => none

def read? (s : String) : Option Datum :=
  (readLines t (2 * s.length + 2) [] [] (Text.skipMark s.toList)).map Branches.toDatum

end CovarianceSearch.Toml
