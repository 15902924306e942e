import CovarianceSearch.Config.Form
import CovarianceSearch.Error

namespace CovarianceSearch

namespace Config

def checked (c : Config) : Except Error Config := do
  c.validate
  return c

def load (format : Format) (text : Option String) : Except Error Config :=
  match text with
  | none => .error (.config .unreadable)
  | some text =>
    match (format.read? text).bind (ofDatum? format.convention) with
    | none => .error (.config .unparsable)
    | some c => c.checked

def save (format : Format) (writable : Bool) (c : Config) : Except Error String :=
  match format.write c.toDatum with
  | .error .unsupported => .error (.config .unserializable)
  | .error .overflow => .error .overflow
  | .ok text => if writable then .ok text else .error (.config .unwritable)

end Config

/-- A configuration behind a lock. An edit that breaks off while it holds the lock spoils it for
good, and from then on the configuration can be read but not replaced. -/
structure SharedConfig where
  config : Config := {}
  isSpoiled : Bool := false

namespace SharedConfig

/-- A call for another configuration. Layers have been put together before, if they could be, edits
work on a copy of the configuration in use and may break off. -/
inductive Call where
  | file (format : Format) (text : Option String)
  | layers (merged : Except Error Config)
  | edit (f : Config → Option Config)

inductive Refusal where
  | fault (e : Error)
  | spoiled
  | brokenOff

def replace (s : SharedConfig) (c : Config) : SharedConfig × Except Refusal Unit :=
  if s.isSpoiled then (s, .error .spoiled) else ({ s with config := c }, .ok ())

/-- Files and layers are read before the lock is taken, edits are made under it. -/
def call (s : SharedConfig) : Call → SharedConfig × Except Refusal Unit
  | .file format text =>
    match Config.load format text with
    | .ok c => s.replace c
    | .error e => (s, .error (.fault e))
  | .layers merged =>
    match merged.bind Config.checked with
    | .ok c => s.replace c
    | .error e => (s, .error (.fault e))
  | .edit f =>
    if s.isSpoiled then (s, .error .spoiled)
    else
      match f s.config with
      | none => ({ s with isSpoiled := true }, .error .brokenOff)
      | some c =>
        match c.checked with
        | .ok c => ({ s with config := c }, .ok ())
        | .error e => (s, .error (.fault e))

def runFrom (s : SharedConfig) (calls : List Call) : SharedConfig :=
  calls.foldl (fun s call ↦ (s.call call).1) s

def run (calls : List Call) : SharedConfig := runFrom {} calls

end SharedConfig

end CovarianceSearch
