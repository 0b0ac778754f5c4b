import ModuleMap.Command.Report

/-!
# Showing the version

* `versionReport`: the command.
-/

namespace ModuleMap

/-- The version of the program, as text or as JSON. -/
def versionReport (json : Bool) : Printed :=
  if json then document (.ok [("version", .string Release.version)])
  else .ok (Release.banner ++ "\n")

end ModuleMap
