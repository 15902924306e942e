import CovarianceSearch.Entry
import CovarianceSearch.KernelTree.Form

namespace CovarianceSearch

namespace Assignment

def toDatum (m : Assignment) : Datum := .table (m.entries.map fun (name, v) ↦ (name, .real v))

def entry? (field : String × Datum) : Option (String × Float) :=
  field.2.real?.map fun v ↦ (field.1, v)

def ofDatum? : Datum → Option Assignment
  | .table fields => (fields.mapM entry?).map ofList
  | _ => none

end Assignment

namespace Entry

def fieldNames : List String :=
  ["key", "ast", "depth", "score", "params", "expression", "evaluated"]

def toDatum (e : Entry) : Datum :=
  .table (fieldNames.zip [.text e.key, e.tree.toDatum, .integer e.depth, .real e.score,
    e.params.elim .null Assignment.toDatum, e.expression.elim .null .text, .bool e.evaluated])

def ofDatum? (d : Datum) : Option Entry := do
  let fields ← d.record? fieldNames
  return {
    key := ← fields.required? "key" Datum.text?
    tree := ← fields.required? "ast" KernelTree.ofDatum?
    depth := ← fields.required? "depth" Datum.natural?
    score := ← fields.required? "score" Datum.real?
    params := ← fields.optional? "params" Assignment.ofDatum?
    expression := ← fields.optional? "expression" Datum.text?
    evaluated := ← fields.required? "evaluated" Datum.bool? }

end Entry

end CovarianceSearch
