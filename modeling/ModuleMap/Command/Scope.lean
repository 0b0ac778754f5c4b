import ModuleMap.Command.Report
import ModuleMap.Scope.Lookup

/-!
# Showing a package scope

* `PackageScope.lines`, `PackageScope.toValue`: the two written forms of a scope.
* `Settings.scope`: the command.
-/

namespace ModuleMap

namespace PackageScope

/-- A scope as lines of text. -/
def lines (s : PackageScope) : String :=
  let m := s.manifest
  s.manifestPath.display ++ "\n" ++
    String.join (
      (m.name.map ("  name: " ++ · ++ "\n")).toList ++
      (m.type.map ("  type: " ++ ·.word ++ "\n")).toList ++
      (m.main.map ("  main: " ++ · ++ "\n")).toList)

/-- A scope as a JSON value. -/
def toValue (s : PackageScope) : Except String Json.Value := do
  return .object [("directory", ← s.directory.toValue), ("data", s.manifest.toValue)]

end PackageScope

/-- The package scope of a file, as text or as JSON. -/
def Settings.scope (s : Settings) (t : FileTree) (file : Path) (json : Bool) : Printed := do
  let path := s.absoluteInput t file
  let scope ← (ScopeCache.empty.findScope t path).1.mapError (.ofFault [])
  if json then
    document do
      let shown ← path.toValue
      let found ←
        match scope with
        | some scope => scope.toValue
        | none => pure .null
      return [("path", shown), ("scope", found)]
  else
    match scope with
    | some scope => return scope.lines
    | none => return path.display ++ ": no package scope\n"

end ModuleMap
