import CovarianceSearch.Document.Field
import CovarianceSearch.Document.Ron.Number

namespace CovarianceSearch.Ron

def named? (name : String) : Option Datum :=
  match name with
  | "true" => some (.bool true)
  | "false" => some (.bool false)
  | "None" => some .null
  | "inf" | "inff32" | "inff64" => some (.real (1.0 / 0.0))
  | "NaN" | "NaNf32" | "NaNf64" => some (.real (0.0 / 0.0))
  | _ => none

def readSigned (cs : List Char) : Option (Datum × List Char) := do
  let (sign, cs) := Decimal.Numeral.takeSign cs
  let (name, rest) ← readName cs
  match named? name with
  | some (.real x) => return (.real (if sign = some '-' then -x else x), rest)
  | _ => none

def readAtom (cs : List Char) : Option (Datum × List Char) :=
  match cs with
  | '(' :: ')' :: rest => some (.null, rest)
  | '"' :: _ | '\'' :: _ | 'r' :: '"' :: _ | 'r' :: '#' :: '"' :: _ | 'r' :: '#' :: '#' :: _ =>
    (readText cs).map fun (s, r) ↦ (.text (String.ofList s), r)
  | '+' :: _ | '-' :: _ => (readSigned cs).orElse fun _ ↦ readNumber cs
  | _ => readNumber cs

def isRecord (cs : List Char) : Bool :=
  match readName cs with
  | some (_, rest) => (skip rest).any (·.head? = some ':')
  | none => false

mutual

def readValue : (bound room : Nat) → List Char → Option (Datum × List Char)
  | 0, _, _ => none
  | bound + 1, room, cs =>
    match readAtom cs with
    | some r => some r
    | none =>
      match cs with
      | '(' :: rest => readGroup bound room rest
      | '[' :: rest => do
        let (items, r) ← readItems bound room ']' (← skip rest)
        return (.list items, r)
      | '\x7b' :: rest => do
        let (fields, r) ← readFields bound room '\x7d' (← skip rest)
        return (.ofPairs fields, r)
      | cs => do
        let (name, rest) ← readName cs
        match named? name with
        | some d => return (d, rest)
        | none => readNamed bound room name rest

/-- Reads what follows a name, which says nothing unless it marks a value that need not be
there. -/
def readNamed : (bound room : Nat) → String → List Char → Option (Datum × List Char)
  | 0, _, _, _ => none
  | bound + 1, room, name, cs => do
    match ← skip cs with
    | '(' :: rest =>
      if name ≠ "Some" then readGroup bound room rest
      else if room = 0 then none
      else
        let (d, rest) ← readValue bound (room - 1) (← skip rest)
        match ← skipComma rest with
        | (_, ')' :: rest) => return (d, rest)
        | _ => none
    | rest => if name = "Some" then none else return (.null, rest)

def readGroup : (bound room : Nat) → List Char → Option (Datum × List Char)
  | 0, _, _ => none
  | bound + 1, room, cs => do
    let cs ← skip cs
    if isRecord cs then
      let (fields, r) ← readFields bound room ')' cs
      return (.ofPairs fields, r)
    else
      let (items, r) ← readItems bound room ')' cs
      return (.list items, r)

def readItems : (bound room : Nat) → (ending : Char) → List Char →
    Option (List Datum × List Char)
  | 0, _, _, _ => none
  | bound + 1, room, ending, cs =>
    if cs.head? = some ending then some ([], cs.drop 1)
    else if room = 0 then none
    else do
      let (d, rest) ← readValue bound (room - 1) cs
      let (hasComma, rest) ← skipComma rest
      if hasComma || rest.head? = some ending then
        let (ds, r) ← readItems bound room ending rest
        return (d :: ds, r)
      else none

/-- Reads the fields of a record, whose keys are names, or of a table, whose keys are texts. -/
def readFields : (bound room : Nat) → (ending : Char) → List Char →
    Option (List (String × Datum) × List Char)
  | 0, _, _, _ => none
  | bound + 1, room, ending, cs =>
    if cs.head? = some ending then some ([], cs.drop 1)
    else if room = 0 then none
    else do
      let (key, rest) ← if ending = ')' then readName cs
        else (readValue bound (room - 1) cs).bind fun (d, r) ↦ d.text?.map (·, r)
      match ← skip rest with
      | ':' :: rest =>
        let (d, rest) ← readValue bound (room - 1) (← skip rest)
        let (hasComma, rest) ← skipComma rest
        if hasComma || rest.head? = some ending then
          let (fields, r) ← readFields bound room ending rest
          return ((key, d) :: fields, r)
        else none
      | _ => none

end

/-- The parts of a document that say how it is to be read, and make no difference here. -/
def extensions : List String :=
  ["unwrap_newtypes", "implicit_some", "unwrap_variant_newtypes", "explicit_struct_names"]

def skipExtensions : (bound : Nat) → List Char → Option (List Char)
  | 0, _ => none
  | bound + 1, cs => do
    let (name, rest) ← readName cs
    if name ∉ extensions then none
    else
      match ← skipComma rest with
      | (true, rest) => if (readName rest).isSome then skipExtensions bound rest else return rest
      | (false, rest) => return rest

def skipAll (expected : List Char) (cs : List Char) : Option (List Char) :=
  expected.foldlM
    (fun cs c ↦ (skip cs).bind fun cs ↦ if cs.head? = some c then some (cs.drop 1) else none) cs

def skipHead : (bound : Nat) → List Char → Option (List Char)
  | 0, _ => none
  | bound + 1, cs => do
    match ← skip cs with
    | '#' :: rest =>
      let rest ← skipAll ['!', '['] rest
      let (name, rest) ← readName (← skip rest)
      if name ≠ "enable" then none
      else
        let rest ← skip (← skipAll ['('] rest)
        let rest ← skipExtensions (rest.length + 1) rest
        skipHead bound (← skipAll [')', ']'] rest)
    | rest => return rest

def read? (s : String) : Option Datum := do
  let cs ← skipHead (s.length + 1) s.toList
  let (d, rest) ← readValue (3 * s.length + 3) 128 cs
  if (← skip rest) = [] then some d else none

end CovarianceSearch.Ron
