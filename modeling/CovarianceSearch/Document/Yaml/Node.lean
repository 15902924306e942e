import CovarianceSearch.Document.Yaml.Layout

namespace CovarianceSearch.Yaml

/-- What a node is called, so that others can refer to it, and what type it is said to have. -/
structure Properties where
  anchor : Option String := none
  tag : Option (Bool × String) := none

inductive Node where
  | reference (name : String)
  | scalar (p : Properties) (isPlain : Bool) (text : String)
  | sequence (p : Properties) (items : List Node)
  | mapping (p : Properties) (fields : List (Node × Node))

namespace Node

def empty : Node := .scalar {} true ""

def readProperties : List Token → Properties × List Token
  | .anchor name :: .tag isCore t :: ts => (⟨some name, some (isCore, t)⟩, ts)
  | .tag isCore t :: .anchor name :: ts => (⟨some name, some (isCore, t)⟩, ts)
  | .anchor name :: ts => (⟨some name, none⟩, ts)
  | .tag isCore t :: ts => (⟨none, some (isCore, t)⟩, ts)
  | ts => ({}, ts)

def endsField : List Token → Bool
  | .key :: _ | .value :: _ | .blockEnd :: _ => true
  | _ => false

def endsFlow : List Token → Bool
  | .comma :: _ | .flowSequenceEnd :: _ | .flowMappingEnd :: _ => true
  | _ => false

mutual

/-- Reads a node, which may be written in blocks, and whose items need no indentation if
`isField` says so. No more than `bound` follow one another. -/
def read : (bound : Nat) → (inBlock isField : Bool) → List Token → Option (Node × List Token)
  | 0, _, _, _ => none
  | bound + 1, inBlock, isField, ts =>
    match ts with
    | .reference name :: ts => some (.reference name, ts)
    | ts =>
      let (p, ts) := readProperties ts
      match inBlock, ts with
      | _, .scalar isPlain text :: ts => some (.scalar p isPlain text, ts)
      | _, .flowSequence :: ts =>
        (readFlowItems bound true ts).map fun (items, r) ↦ (.sequence p items, r)
      | _, .flowMapping :: ts =>
        (readFlowFields bound true ts).map fun (fields, r) ↦ (.mapping p fields, r)
      | true, .blockSequence :: ts =>
        (readItems bound true ts).map fun (items, r) ↦ (.sequence p items, r)
      | true, .blockMapping :: ts =>
        (readFields bound ts).map fun (fields, r) ↦ (.mapping p fields, r)
      | _, ts =>
        match isField, ts with
        | true, .entry :: _ =>
          (readItems bound false ts).map fun (items, r) ↦ (.sequence p items, r)
        | _, ts =>
          if p.anchor.isSome || p.tag.isSome then some (.scalar p true "", ts) else none

def readItems : (bound : Nat) → (isIndented : Bool) → List Token →
    Option (List Node × List Token)
  | 0, _, _ => none
  | bound + 1, isIndented, ts =>
    match ts with
    | .entry :: ts => do
      let isEmpty := match isIndented, ts with
        | _, .entry :: _ => true
        | true, .blockEnd :: _ => true
        | true, _ => false
        | false, ts => endsField ts
      let (item, ts) ← if isEmpty then some (empty, ts) else read bound true false ts
      let (items, r) ← readItems bound isIndented ts
      return (item :: items, r)
    | .blockEnd :: rest => some ([], if isIndented then rest else ts)
    | ts => if isIndented then none else some ([], ts)

def readPart : (bound : Nat) → List Token → Option (Node × List Token)
  | 0, _ => none
  | bound + 1, ts => if endsField ts then some (empty, ts) else read bound true true ts

def readFields : (bound : Nat) → List Token → Option (List (Node × Node) × List Token)
  | 0, _ => none
  | bound + 1, ts => do
    match ts with
    | .blockEnd :: ts => return ([], ts)
    | ts =>
      let (key, ts) ← match ts with
        | .key :: ts => readPart bound ts
        | .value :: _ => some (empty, ts)
        | _ => none
      let (value, ts) ← match ts with
        | .value :: ts => readPart bound ts
        | ts => some (empty, ts)
      let (fields, r) ← readFields bound ts
      return ((key, value) :: fields, r)

def readFlowPart : (bound : Nat) → List Token → Option (Node × List Token)
  | 0, _ => none
  | bound + 1, ts => if endsFlow ts then some (empty, ts) else read bound false false ts

def readFlowField : (bound : Nat) → List Token → Option ((Node × Node) × List Token)
  | 0, _ => none
  | bound + 1, ts => do
    match ts with
    | .key :: .value :: ts | .value :: ts =>
      let (value, ts) ← readFlowPart bound ts
      return ((empty, value), ts)
    | .key :: ts =>
      match ← readFlowPart bound ts with
      | (key, .value :: ts) =>
        let (value, ts) ← readFlowPart bound ts
        return ((key, value), ts)
      | (key, ts) => return ((key, empty), ts)
    | ts =>
      let (key, ts) ← read bound false false ts
      return ((key, empty), ts)

def readFlowItems : (bound : Nat) → (isFirst : Bool) → List Token →
    Option (List Node × List Token)
  | 0, _, _ => none
  | bound + 1, isFirst, ts => do
    match isFirst, ts with
    | _, .flowSequenceEnd :: ts => return ([], ts)
    | false, .comma :: .flowSequenceEnd :: ts => return ([], ts)
    | isFirst, ts =>
      let ts ← match isFirst, ts with
        | true, ts => some ts
        | false, .comma :: ts => some ts
        | false, _ => none
      let (item, ts) ← match ts with
        | .key :: _ => (readFlowField bound ts).map fun (field, r) ↦ (.mapping {} [field], r)
        | ts => read bound false false ts
      let (items, r) ← readFlowItems bound false ts
      return (item :: items, r)

def readFlowFields : (bound : Nat) → (isFirst : Bool) → List Token →
    Option (List (Node × Node) × List Token)
  | 0, _, _ => none
  | bound + 1, isFirst, ts => do
    match isFirst, ts with
    | _, .flowMappingEnd :: ts => return ([], ts)
    | false, .comma :: .flowMappingEnd :: ts => return ([], ts)
    | isFirst, ts =>
      let ts ← match isFirst, ts with
        | true, ts => some ts
        | false, .comma :: ts => some ts
        | false, _ => none
      let (field, ts) ← readFlowField bound ts
      let (fields, r) ← readFlowFields bound false ts
      return (field :: fields, r)

end

/-- The mark of its end does not belong to a document. -/
def skipEnds : List Token → List Token
  | .documentEnd :: ts => skipEnds ts
  | ts => ts

def skipDirectives : List Token → List Token
  | .directive :: ts => skipDirectives ts
  | ts => ts

def ofTokens? (ts : List Token) : Option (Option Node) := do
  let bound := 4 * ts.length + 4
  match skipEnds ts with
  | [] => return none
  | ts =>
    let (node, ts) ← match skipDirectives ts with
      | .documentStart :: ts =>
        match ts with
        | [] | .documentEnd :: _ => some (empty, ts)
        | ts => read bound true false ts
      | .directive :: _ => none
      | rest => if rest.length = ts.length then read bound true false ts else none
    if (skipEnds ts).isEmpty then return some node else none

end Node

end CovarianceSearch.Yaml
