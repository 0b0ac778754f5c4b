import ModuleMap.Json.Printer
import ModuleMap.Release
import ModuleMap.Settings
import ModuleMap.Tsconfig.Load

/-!
# What commands share

* `Report`, `Report.ofFault`: why a command fails, from the outermost context to the root cause.
* `Settings.loadConfig`: the config of a run.
* `Settings.absoluteInput`: a path given by the user.
* `document`: a JSON document as it is printed.
-/

namespace ModuleMap

/-- Why a command fails: messages from the outermost context to the root cause. -/
structure Report where
  chain : List String
  deriving DecidableEq, Repr

namespace Report

/-- The report of a fault in the given context. -/
def ofFault (context : List String) (f : Fault) : Report :=
  ⟨context ++ f.message :: f.source?.toList⟩

/-- The report of a single message. -/
def ofMessage (message : String) : Report :=
  ⟨[message]⟩

/-- The messages in one line. -/
def message (r : Report) : String :=
  ": ".intercalate r.chain

end Report

/-- What a command prints, or why it fails. -/
abbrev Printed := Except Report String

namespace Settings

/-- The config of a run, if it has one.  There is no answer where loading that has none. -/
def loadConfig (s : Settings) (t : FileTree) : Option (Except Report (Option Tsconfig)) :=
  match s.configPath? t with
  | none => some (.ok none)
  | some p => (Tsconfig.load t p).map fun
    | .ok c => .ok (some c)
    | .error f => .error (.ofFault ["Failed to load " ++ p.display] f)

/-- A path given by the user, taken from the working directory: the place it names if there is one,
else as it is joined. -/
def absoluteInput (s : Settings) (t : FileTree) (p : Path) : Path :=
  (t.canonical? (s.cwd.join p)).getD (s.cwd.join p)

end Settings

/-- The member that tells the version of a document. -/
def schemaMember : String × Json.Value :=
  ("schema_version", .number (.natural Release.schemaVersion))

/-- A JSON document as it is printed. -/
def document (members : Except String (List (String × Json.Value))) : Printed :=
  match members with
  | .ok ms => .ok ((Json.Value.object (schemaMember :: ms)).pretty.push '\n')
  | .error e => .error (.ofMessage e)

end ModuleMap
