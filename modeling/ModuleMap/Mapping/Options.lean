import ModuleMap.Json.Reader
import ModuleMap.Path.Basic

/-!
# Mapping options

* `MappingOptions`: the base directory and the `paths` entries.
* `MappingOptions.fields`, `MappingOptions.parse`: the options in JSON.
-/

namespace ModuleMap

/-- The options that a mapper is made from. -/
structure MappingOptions where
  /-- The directory that outputs are joined to. -/
  baseUrl : Option Path := none
  /-- Keys and their outputs, in the order in which they are declared. -/
  paths : Option (List (String × List String)) := none
  deriving DecidableEq, Repr

namespace MappingOptions

/-- The options with one more `paths` entry. -/
def addPath (o : MappingOptions) (key : String) (outputs : List String) : MappingOptions :=
  { o with paths := some (o.paths.getD [] ++ [(key, outputs)]) }

/-- The members of the options in JSON. -/
def fields : List (Json.Field MappingOptions) :=
  [⟨"baseUrl", fun o ts => do
      let (v, rest) ← Json.readNullable Json.readString ts
      .ok ({ o with baseUrl := v.map .ofText }, rest)⟩,
   ⟨"paths", fun o ts => do
      let (v, rest) ← Json.readNullable (Json.readEntries (Json.readItems Json.readString)) ts
      .ok ({ o with paths := v }, rest)⟩]

/-- Options, all of which may be left out. -/
def read : Json.Reader MappingOptions :=
  Json.readRecord fields {} {}

/-- The options that a text spells. -/
def parse (text : List Char) : Except Json.Error MappingOptions :=
  Json.readDocument read text

end MappingOptions

end ModuleMap
