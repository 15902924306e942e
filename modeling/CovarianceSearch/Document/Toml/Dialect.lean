import CovarianceSearch.Document.Datum

namespace CovarianceSearch.Toml

/-- What readers of the format do not agree on. -/
structure Dialect where
  /-- How deep arrays and inline tables may be nested. -/
  nesting : Nat
  /-- How many keys a path may have. -/
  pathLength : Nat
  /-- Whether inline tables may hold line ends and a last comma, texts the escapes of `e` and `x`,
  and times no seconds. -/
  isRecent : Bool
  /-- Whether keys with points may add to a table that headers have only led through. -/
  adopts : Bool
  /-- What a carriage return and a line feed are in a text of several lines. -/
  lineEnd : List Char
  /-- Whether a written number may be held as a float. -/
  accepts : Float → Bool
  /-- A date or a time from its normal form. -/
  ofTime : String → Datum

namespace Dialect

/-- Version 1.0. A date or a time is a record of its text, and a negative number may be too large
for a float. -/
def strict : Dialect where
  nesting := 79
  pathLength := 79
  isRecent := false
  adopts := false
  lineEnd := ['\n']
  accepts x := x.isFinite || x < 0.0
  ofTime s := .table [("time", .text s)]

/-- Version 1.1. A date or a time is a text. -/
def lenient : Dialect where
  nesting := 80
  pathLength := 80
  isRecent := true
  adopts := true
  lineEnd := ['\r', '\n']
  accepts := Float.isFinite
  ofTime := .text

end Dialect

end CovarianceSearch.Toml
