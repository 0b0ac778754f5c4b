import ModuleMap.Override
import ModuleMap.Scope.Lookup

/-!
# Module formats

The format of a file follows from an override, from its extension, or, for files under the rules of
package scopes, from the `type` of the nearest manifest.

* `ModuleFormat`: the formats.
* `ModuleFormat.ofExtension?`: the format that the extension alone decides.
* `ModuleFormat.classify`: the format by extension and package scope.
* `ModuleFormat.resolve`: the format with overrides taken into account.
-/

namespace ModuleMap

/-- The formats of a single file. -/
inductive ModuleFormat where
  | cjs
  | esm
  /-- CommonJS under the rules of package scopes. -/
  | nodeCjs
  /-- An ES module under the rules of package scopes. -/
  | nodeEsm
  /-- Neither is settled. -/
  | unspecified
  deriving DecidableEq, Repr

namespace ModuleFormat

/-- The word for a format. -/
def word : ModuleFormat → String
  | cjs => "cjs"
  | esm => "esm"
  | nodeCjs => "node-flavored-cjs"
  | nodeEsm => "node-flavored-esm"
  | unspecified => "unspecified"

/-- Whether the format is CommonJS. -/
def isCommonjs : ModuleFormat → Bool
  | cjs | nodeCjs => true
  | esm | nodeEsm | unspecified => false

/-- Whether the format is that of ES modules. -/
def isEsm : ModuleFormat → Bool
  | esm | nodeEsm => true
  | cjs | nodeCjs | unspecified => false

/-- CommonJS, with or without the rules of package scopes. -/
def commonjs (packageScoped : Bool) : ModuleFormat :=
  if packageScoped then nodeCjs else cjs

/-- ES modules, with or without the rules of package scopes. -/
def ecma (packageScoped : Bool) : ModuleFormat :=
  if packageScoped then nodeEsm else esm

/-- The extensions of CommonJS files. -/
def commonjsExtensions : List Segment :=
  ["cjs", "cts"].map fun s => Text.encode s.toList

/-- The extensions of ES modules. -/
def ecmaExtensions : List Segment :=
  ["mjs", "mts"].map fun s => Text.encode s.toList

/-- The format that the extension decides.  Under the rules of package scopes any other extension
leaves it open. -/
def ofExtension? (p : Path) (packageScoped : Bool) : Option ModuleFormat :=
  match p.extension? with
  | some ext =>
    if ext ∈ commonjsExtensions then some (commonjs packageScoped)
    else if ext ∈ ecmaExtensions then some (ecma packageScoped)
    else if packageScoped then none
    else some unspecified
  | none => if packageScoped then none else some unspecified

/-- The format of a file by its extension, and where that leaves it open by its package scope. -/
def classify (t : FileTree) (c : ScopeCache) (p : Path) (packageScoped : Bool) :
    Except Fault ModuleFormat × ScopeCache :=
  match ofExtension? p packageScoped with
  | some format => (.ok format, c)
  | none =>
    match c.findScope t p with
    | (.ok (some scope), c) => (.ok (if scope.manifest.isModule then nodeEsm else nodeCjs), c)
    | (.ok none, c) => (.ok nodeCjs, c)
    | (.error f, c) => (.error f, c)

/-- The format of a file: that of an override if one forces a kind, else that of the file itself. -/
def resolve (t : FileTree) (o : Overrides) (c : ScopeCache) (p : Path) (packageScoped : Bool) :
    Except Fault ModuleFormat × ScopeCache :=
  match o.lookup? p with
  | some .cjs => (.ok (commonjs packageScoped), c)
  | some .esm => (.ok (ecma packageScoped), c)
  | some .package | none => classify t c p packageScoped

end ModuleFormat

end ModuleMap
