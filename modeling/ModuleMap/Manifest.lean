import ModuleMap.Json.Document

/-!
# Package manifests

* `PackageType`, `Manifest`: the part of a `package.json` that is kept.
* `Manifest.ofValue`, `Manifest.parse`: a manifest from a JSON value or text.
* `Manifest.toValue`: the kept members as an object.
-/

namespace ModuleMap

/-- The values of `type` that count. -/
inductive PackageType where
  | commonjs
  | module
  deriving DecidableEq, Repr

/-- The word for a package type. -/
def PackageType.word : PackageType → String
  | commonjs => "commonjs"
  | module => "module"

/-- The members of a manifest that are kept. -/
structure Manifest where
  name : Option String := none
  main : Option String := none
  exports : Option Json.Value := none
  imports : Option Json.Value := none
  type : Option PackageType := none
  deriving Repr, BEq

namespace Manifest

/-- The manifest in a JSON value.  Members of the wrong type count as absent, `exports` and
`imports` are kept whatever they are, and a `type` other than the two known ones counts as
absent. -/
def ofValue (v : Json.Value) : Manifest where
  name := (v.get? "name").bind (·.string?)
  main := (v.get? "main").bind (·.string?)
  exports := v.get? "exports"
  imports := v.get? "imports"
  type :=
    match (v.get? "type").bind (·.string?) with
    | some "module" => some .module
    | some "commonjs" => some .commonjs
    | _ => none

/-- The manifest that a text spells. -/
def parse (text : List Char) : Except Json.Error Manifest := do
  return ofValue (← Json.Value.parse text)

/-- Whether the files of the package are ES modules by default. -/
def isModule (m : Manifest) : Bool :=
  m.type == some .module

/-- The kept members as an object; absent ones are left out. -/
def toValue (m : Manifest) : Json.Value :=
  .object <|
    (m.name.map fun s => ("name", .string s)).toList ++
    (m.main.map fun s => ("main", .string s)).toList ++
    (m.exports.map fun v => ("exports", v)).toList ++
    (m.imports.map fun v => ("imports", v)).toList ++
    (m.type.map fun t => ("type", .string t.word)).toList

end Manifest

end ModuleMap
