import ModuleMap.Json.Document
import ModuleMap.Json.Printer
import ModuleMap.Tsconfig.Extends

/-!
# The settings of a run

* `Settings`: working directory, logging, and the config to be used.
* `Settings.withProject`, `Settings.configPath?`: naming a config, and finding the one to load.
* `Settings.parse`, `Settings.toText`: settings from JSON and as JSON.
-/

namespace ModuleMap

/-- A path as a JSON string, if it is UTF-8. -/
def Path.toValue (p : Path) : Except String Json.Value :=
  match p.text? with
  | some s => .ok (.string s)
  | none => .error "path contains invalid UTF-8 characters"

/-- A path that may be absent as a JSON value. -/
def Path.optionToValue : Option Path → Except String Json.Value
  | some p => p.toValue
  | none => .ok .null

/-- The settings of a run. -/
structure Settings where
  /-- The directory that paths are taken from. -/
  cwd : Path
  /-- Whether logs are JSON. -/
  jsonLogs : Bool := false
  /-- How much is logged. -/
  verbosity : Nat := 0
  /-- The config to load, if one is named. -/
  project : Option Path := none
  deriving DecidableEq, Repr

namespace Settings

/-- The settings with a config named, or none.  It is taken from the working directory. -/
def withProject (s : Settings) (project : Option Path) : Settings :=
  { s with project := project.map s.cwd.join }

/-- The config to load: the named one, or else the nearest above the working directory. -/
def configPath? (s : Settings) (t : FileTree) : Option Path :=
  s.project.or (t.nearestConfig? s.cwd)

/-! ## JSON -/

/-- The members of settings in JSON. -/
def fields : List (Json.Field Settings) :=
  [⟨"cwd", fun s ts => do
      let (v, rest) ← Json.readString ts
      .ok ({ s with cwd := .ofText v }, rest)⟩,
   ⟨"json_logs", fun s ts => do
      let (v, rest) ← Json.readBool ts
      .ok ({ s with jsonLogs := v }, rest)⟩,
   ⟨"verbosity", fun s ts => do
      let (v, rest) ← Json.readByte ts
      .ok ({ s with verbosity := v }, rest)⟩,
   ⟨"project", fun s ts => do
      let (v, rest) ← Json.readNullable Json.readString ts
      .ok ({ s with project := v.map .ofText }, rest)⟩]

/-- The settings that a text spells.  An object may leave out `project` only; an array gives all
four members. -/
def parse (text : List Char) : Except Json.Error Settings :=
  Json.readDocument
    (Json.readRecord fields ⟨["cwd", "json_logs", "verbosity"], false⟩ { cwd := .empty }) text

/-- The settings as a JSON value, unless one of the paths is not UTF-8. -/
def toValue (s : Settings) : Except String Json.Value := do
  let cwd ← s.cwd.toValue
  let project ← Path.optionToValue s.project
  return .object
    [("cwd", cwd), ("json_logs", .bool s.jsonLogs), ("verbosity", .number (.natural s.verbosity)),
     ("project", project)]

/-- The settings as a JSON text. -/
def toText (s : Settings) : Except String String := do
  return (← s.toValue).compact

end Settings

end ModuleMap
