import ModuleMap.FileTree.Basic
import ModuleMap.Glob.Parser
import ModuleMap.Json.Error

/-!
# Faults

* `Fault`: what can go wrong in mapping, loading, looking up and classifying.
* `Fault.message`, `Fault.source?`: the text of a fault, and that of the failure behind it.
* `Fault.isConfiguration`: whether the fault lies in mapping or override entries.
-/

namespace ModuleMap

/-- What can go wrong. -/
inductive Fault where
  /-- A path could not be used. -/
  | io (cause : PathError)
  /-- There are `paths` entries, but no `baseUrl` to join their outputs to. -/
  | baseUrlRequired
  /-- A `paths` key has more than one `*`. -/
  | twoWildcards (key : String)
  /-- A `moduleTypes` key is no glob. -/
  | overridePattern (key : String) (cause : Glob.Error)
  /-- A manifest exists but cannot be read. -/
  | manifestRead (path : Path) (cause : PathError)
  /-- A manifest is not JSON. -/
  | manifestParse (path : Path) (cause : Json.Error)
  /-- A config cannot be read. -/
  | configRead (path : Path) (cause : PathError)
  /-- A config is not of the expected form. -/
  | configParse (path : Path) (cause : Json.Error)
  /-- A config extends itself. -/
  | configCycle (path : Path)
  deriving DecidableEq, Repr

/-- The text of the failure behind a fault, if there is one. -/
def Fault.source? : Fault → Option String
  | io cause | manifestRead _ cause | configRead _ cause => some cause.message
  | overridePattern _ cause => some cause.message
  | manifestParse _ cause | configParse _ cause => some cause.message
  | baseUrlRequired | twoWildcards _ | configCycle _ => none

/-- The text of a fault. -/
def Fault.message : Fault → String
  | io cause => "IO error: " ++ cause.message
  | baseUrlRequired => "baseUrl required when paths is set"
  | twoWildcards key => "path pattern '" ++ key ++ "' contains two wildcards"
  | overridePattern key cause => "invalid moduleTypes pattern '" ++ key ++ "': " ++ cause.message
  | manifestRead path cause =>
    "Failed to read package.json at " ++ path.display ++ ": " ++ cause.message
  | manifestParse path cause =>
    "Failed to parse package.json at " ++ path.display ++ ": " ++ cause.message
  | configRead path cause => "Failed to read config at " ++ path.display ++ ": " ++ cause.message
  | configParse path cause => "Failed to parse config at " ++ path.display ++ ": " ++ cause.message
  | configCycle path => "Config " ++ path.display ++ " extends itself through a cycle"

/-- The path that a fault is about. -/
def Fault.path? : Fault → Option Path
  | manifestRead path _ | manifestParse path _ => some path
  | configRead path _ | configParse path _ | configCycle path => some path
  | io _ | baseUrlRequired | twoWildcards _ | overridePattern _ _ => none

/-- Whether a fault lies in mapping or override entries. -/
def Fault.isConfiguration : Fault → Bool
  | baseUrlRequired | twoWildcards _ | overridePattern _ _ => true
  | io _ | manifestRead _ _ | manifestParse _ _ => false
  | configRead _ _ | configParse _ _ | configCycle _ => false

end ModuleMap
