import CovarianceSearch.Config.Form
import CovarianceSearch.Document.Path
import CovarianceSearch.Document.Reader
import CovarianceSearch.Error

namespace CovarianceSearch

structure Variable where
  name : String
  value : String

namespace Layers

def listFields : List String := ["grammar.base_kernels", "grammar.base_kernels_to_exclude"]

/-- Writes two underscores in a row as a point. -/
def pointed : List Char → List Char
  | '_' :: '_' :: cs => '.' :: pointed cs
  | c :: cs => c :: pointed cs
  | [] => []

/-- The field that a variable overrides, if its name begins with `mark`. Names count in lower
case. -/
def field? (mark name : String) : Option String :=
  let start := Convention.lowered (mark ++ "__")
  (start.toList.isPrefixOf? (Convention.lowered name).toList).map (String.ofList ∘ pointed)

/-- The value that a word stands for: a truth value or a number, if it is written like one. -/
def ofWord (s : String) : Datum :=
  match Convention.lowered s with
  | "true" => .bool true
  | "false" => .bool false
  | _ =>
    let real := (Decimal.Numeral.readReal? s.toList).elim (.text s) .real
    match Decimal.Numeral.readSigned? s.toList with
    | some n => if fitsWord n then .integer n else real
    | none => real

def value (field s : String) : Datum :=
  match ofWord s with
  | .text s =>
    if field ∈ listFields then .list ((s.toList.splitOn ',').map (.text ∘ String.ofList))
    else .text s
  | d => d

structure Setting where
  path : Path
  value : Datum

def ofVariable? (mark : String) (v : Variable) : Option Setting :=
  (field? mark v.name).map fun field ↦ ⟨.ofText field, value field v.value⟩

def ofFile? (d : Datum) : Option (List Setting) :=
  d.fields?.map fun fields ↦ fields.map fun (name, value) ↦ ⟨.ofText name, value⟩

def lay (d : Datum) (s : Setting) : Datum := s.path.change (·.overlay s.value) d

def merge (settings : List Setting) : Datum := settings.foldl lay (.table [])

end Layers

/-- A file, if there is one, and the variables that override it, whose names begin with a mark. -/
structure Config.Sources where
  file : Option (Reader × String)
  mark : String
  environment : List Variable

namespace Config.Sources

def fileSettings? (s : Sources) : Option (List Layers.Setting) :=
  match s.file with
  | none => some []
  | some (read?, text) => (read? (String.ofList (Text.skipMark text.toList))).bind Layers.ofFile?

def settings? (s : Sources) : Option (List Layers.Setting) :=
  s.fileSettings?.map (· ++ s.environment.filterMap (Layers.ofVariable? s.mark))

def merged (s : Sources) : Except Error Config :=
  match s.settings? with
  | none => .error .layers
  | some settings =>
    if settings.all (·.path.isReachable) then
      match ofDatum? .converting (Layers.merge settings) with
      | none => .error .layers
      | some c => .ok c
    else .error .overflow

end Config.Sources

end CovarianceSearch
