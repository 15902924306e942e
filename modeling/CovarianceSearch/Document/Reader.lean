import CovarianceSearch.Document.Convention
import CovarianceSearch.Document.Ini
import CovarianceSearch.Document.Json.Read
import CovarianceSearch.Document.Json.Write
import CovarianceSearch.Document.Json5
import CovarianceSearch.Document.Ron.Read
import CovarianceSearch.Document.Toml.Read
import CovarianceSearch.Document.Toml.Write
import CovarianceSearch.Document.Yaml.Read

namespace CovarianceSearch

namespace Format

def json : Format where
  read? := Json.readWithin? 127
  write d := .ok (Json.pretty d)
  convention := .literal Datum.isNull false

def toml : Format where
  read? := Toml.read? .strict
  write d :=
    match Toml.write? d with
    | none => .error .unsupported
    | some text => if Toml.isCountable d then .ok text else .error .overflow
  convention := .literal Datum.isEmpty true

end Format

abbrev Reader := String → Option Datum

namespace Reader

def ofExtension? : String → Option Reader
  | "ini" => some Ini.read?
  | "json" => some (Json.readWithin? 127)
  | "json5" => some Json5.read?
  | "ron" => some Ron.read?
  | "toml" => some (Toml.read? .lenient)
  | "yaml" | "yml" => some Yaml.read?
  | _ => none

def ofFileName? (name : String) : Option Reader :=
  match (name.toList.splitOn '.').reverse with
  | _ :: [[]] => none
  | extension :: _ :: _ => ofExtension? (String.ofList extension)
  | _ => none

end Reader

end CovarianceSearch
