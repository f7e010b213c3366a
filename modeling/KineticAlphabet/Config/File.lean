import KineticAlphabet.Config.Record
/-!
Configuration files. The extension of a file's name tells its format. A file is read before its name
is looked at, and what it says is checked against limits.
-/
namespace KineticAlphabet.Config

/-- Why a configuration could not be loaded. -/
inductive LoadError
  | json
  | yaml
  | unsupported (ending : String)
  | invalid (fault : Fault)
  | unreadable
deriving DecidableEq

/-- The wording of a failure, as far as it is ours. -/
def LoadError.message : LoadError → String
  | .json => "JSON parse error"
  | .yaml => "YAML parse error"
  | .unsupported ending => "Unsupported config format: " ++ ending
  | .invalid fault => "Validation error: " ++ fault.message
  | .unreadable => "IO error"

def checked (limits : Limits) (c : Config) : Except LoadError Config :=
  match c.checkWithin limits with
  | .ok () => .ok c
  | .error fault => .error (.invalid fault)

def ofJson (limits : Limits) (text : String) : Except LoadError Config :=
  match Json.Doc.readText ofDoc text with
  | .ok c => checked limits c
  | .error _ => .error .json

def ofYaml (limits : Limits) (text : String) : Except LoadError Config :=
  match (Yaml.Node.ofText? text).map ofNode with
  | some (.ok c) => checked limits c
  | _ => .error .yaml

/-- What follows the last dot of a file's name, in small letters. A dot that begins the name does
not count. -/
def fileEnding (path : String) : String :=
  let name := (path.toList.reverse.takeWhile (· ≠ '/')).reverse
  let ending := (name.reverse.takeWhile (· ≠ '.')).reverse
  if name.length ≤ ending.length + 1 then ""
  else Text.lower (String.ofList ending)

/-- The configuration of a file, given its path and the text in it, if it is there and a text. -/
def ofFile (limits : Limits) (path : String) (content : Option String) : Except LoadError Config :=
  match content with
  | none => .error .unreadable
  | some text =>
    match fileEnding path with
    | "json" => ofJson limits text
    | "yaml" | "yml" => ofYaml limits text
    | ending => .error (.unsupported ending)

end KineticAlphabet.Config
