import CovarianceSearch.Document.Yaml.Atom
import CovarianceSearch.Document.Yaml.Node
import CovarianceSearch.Document.Yaml.Tokens

namespace CovarianceSearch.Yaml

inductive Meaning where
  | atom (a : Atom)
  | collection (d : Datum)

def Meaning.toDatum? : Meaning → Option Datum
  | .atom a => a.toDatum?
  | .collection d => some d

abbrev Names := List (String × Meaning)

namespace Properties

def bind (p : Properties) (m : Meaning) (names : Names) : Names :=
  match p.anchor with
  | none => names
  | some name => (name, m) :: names

def atom (p : Properties) (isPlain : Bool) (text : String) : Atom :=
  if !isPlain then .text text
  else
    match p.tag with
    | none => .ofPlain text
    | some (true, type) => .ofTagged type text
    | some (false, _) => .text text

end Properties

namespace Node

mutual

/-- What a node stands for, given what the names before it do. Inside of a node its own name stands
for null. -/
def resolve (names : Names) : Node → Option (Meaning × Names)
  | .reference name => (names.lookup name).map (·, names)
  | .scalar p isPlain text =>
    let m := Meaning.atom (p.atom isPlain text)
    some (m, p.bind m names)
  | .sequence p items => do
    let (ds, names) ← resolveItems (p.bind (.atom .null) names) items
    let m := Meaning.collection (.list ds)
    return (m, p.bind m names)
  | .mapping p fields => do
    let (pairs, names) ← resolveFields [] (p.bind (.atom .null) names) fields
    let m := Meaning.collection (.ofPairs pairs)
    return (m, p.bind m names)

def resolveItems (names : Names) : List Node → Option (List Datum × Names)
  | [] => some ([], names)
  | item :: items => do
    let (m, names) ← resolve names item
    let d ← m.toDatum?
    let (ds, names) ← resolveItems names items
    return (d :: ds, names)

def resolveFields (keys : List Atom) (names : Names) :
    List (Node × Node) → Option (List (String × Datum) × Names)
  | [] => some ([], names)
  | (key, value) :: fields => do
    match ← resolve names key with
    | (.collection _, _) => none
    | (.atom a, names) =>
      let k ← a.key?
      let (m, names) ← resolve names value
      let d ← m.toDatum?
      if a ∈ keys then none
      else
        let (pairs, names) ← resolveFields (a :: keys) names fields
        return ((k, d) :: pairs, names)

end

end Node

/-- Reads a document of collections that are told by indentation or by brackets. No document at all
counts as an empty table. -/
def read? (s : String) : Option Datum := do
  let ts ← tokens? (s.toList.takeWhile (·.toNat ≠ 0))
  match ← Node.ofTokens? ts with
  | none => return .table []
  | some node => (← node.resolve []).1.toDatum?

end CovarianceSearch.Yaml
