import CovarianceSearch.Discovery
import CovarianceSearch.Document.Convention
import CovarianceSearch.Entry.Form

namespace CovarianceSearch

namespace Termination

def toDatum : Termination → Datum
  | .maxDepthReached depth =>
    .table [("reason", .text "max_depth_reached"), ("depth", .integer depth)]
  | .emptySearchSpace depth =>
    .table [("reason", .text "empty_search_space"), ("depth", .integer depth)]
  | .earlyStopping depth improvement threshold =>
    .table [("reason", .text "early_stopping"), ("depth", .integer depth),
      ("improvement", .real improvement), ("threshold", .real threshold)]
  | .cancelled depth => .table [("reason", .text "cancelled"), ("depth", .integer depth)]

def ofReason? (reason : String) (d : Datum) : Option Termination :=
  match reason with
  | "max_depth_reached" => do
    let fields ← d.record? ["depth"]
    return .maxDepthReached (← fields.required? "depth" Datum.integer?)
  | "empty_search_space" => do
    let fields ← d.record? ["depth"]
    return .emptySearchSpace (← fields.required? "depth" Datum.natural?)
  | "early_stopping" => do
    let fields ← d.record? ["depth", "improvement", "threshold"]
    return .earlyStopping (← fields.required? "depth" Datum.natural?)
      (← fields.required? "improvement" Datum.real?) (← fields.required? "threshold" Datum.real?)
  | "cancelled" => do
    let fields ← d.record? ["depth"]
    return .cancelled (← fields.required? "depth" Datum.natural?)
  | _ => none

def ofDatum? : Datum → Option Termination
  | .table fields =>
    (Fields.required? fields "reason" Datum.text?).bind (ofReason? · (.table fields))
  | .list (reason :: details) => reason.text?.bind (ofReason? · (.list details))
  | _ => none

end Termination

namespace Discovery

def fieldNames : List String :=
  ["kernels", "highscore_progression", "termination_reason", "explored", "started_at",
    "finished_at"]

def toDatum (d : Discovery) : Datum :=
  .table (fieldNames.zip [.list (d.kernels.map Entry.toDatum), .list (d.progression.map .real),
    d.termination.toDatum, .integer d.explored, .text d.startedAt, .text d.finishedAt])

def ofDatum? (d : Datum) : Option Discovery := do
  let fields ← d.record? fieldNames
  return {
    kernels := ← fields.required? "kernels" (Datum.items? Entry.ofDatum?)
    progression := ← fields.required? "highscore_progression" (Datum.items? Datum.real?)
    termination := ← fields.required? "termination_reason" Termination.ofDatum?
    explored := ← fields.required? "explored" Datum.natural?
    startedAt := ← fields.required? "started_at" Datum.text?
    finishedAt := ← fields.required? "finished_at" Datum.text? }

def write (format : Format) (d : Discovery) : Except Format.Refusal String :=
  format.write d.toDatum

def read? (format : Format) (text : String) : Option Discovery :=
  (format.read? text).bind ofDatum?

end Discovery

end CovarianceSearch
