/-!
# The release

* `Release.version`, `Release.banner`: the version, alone and with the name of the program.
* `Release.schemaVersion`: the version of the JSON documents that the program prints.
-/

namespace ModuleMap.Release

/-- The version of the program. -/
def version : String := "0.1.0"

/-- The version of the JSON documents. -/
def schemaVersion : Nat := 1

/-- The name of the program and its version. -/
def banner : String := "tsmap " ++ version

end ModuleMap.Release
