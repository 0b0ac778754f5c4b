import ModuleMap.Fault
import ModuleMap.FileTree.Read
import ModuleMap.Json.Document
import ModuleMap.Jsonc.Document
import ModuleMap.Mapping.Options
import ModuleMap.Override

/-!
# What one config declares

* `Declared`: the options that a single `tsconfig.json` declares itself.
* `Declared.parse`: the options in a document.
* `Declared.load`: the options of a file.
-/

namespace ModuleMap

/-- The options that one config declares. -/
structure Declared where
  /-- The configs that it builds on, in order. -/
  bases : List String := []
  /-- The options as they are written; the base directory is not resolved. -/
  mapping : MappingOptions := {}
  moduleTypes : Option (List (String × ModuleKind)) := none
  deriving DecidableEq, Repr

namespace Declared

/-- The configs that an `extends` value names: one text or a list of texts. -/
def extendsOf? : Json.Value → Option (List String)
  | .null => some []
  | .string s => some [s]
  | .array items => items.mapM (·.string?)
  | _ => none

/-- How deep an `extends` value may be nested; the object around it counts. -/
def extendsDepth : Nat := Json.depthLimit - 1

/-- An `extends` value.  It is read as any JSON value before its type is looked at. -/
def readExtends : Json.Reader (List String) := fun ts => do
  let (v, rest) ← Json.readValue extendsDepth ts
  match extendsOf? v with
  | some names => .ok (names, rest)
  | none => .error ⟨.mistyped, rest.length, 0, true⟩

/-- The members of `tsmap` that count. -/
def toolFields : List (Json.Field Declared) :=
  [⟨"moduleTypes", fun d ts => do
      let (v, rest) ← Json.readNullable (Json.readEntries ModuleKind.read) ts
      .ok ({ d with moduleTypes := v }, rest)⟩]

/-- The members of a config that count. -/
def fields : List (Json.Field Declared) :=
  [⟨"extends", fun d ts => do
      let (v, rest) ← readExtends ts
      .ok ({ d with bases := v }, rest)⟩,
   ⟨"compilerOptions", fun d ts => do
      let (v, rest) ← MappingOptions.read ts
      .ok ({ d with mapping := v }, rest)⟩,
   ⟨"tsmap", fun d ts => Json.readRecord toolFields {} d ts⟩]

/-- The options in a document with comments and trailing commas.  A document of blanks declares
nothing. -/
def parse (text : List Char) : Except Json.Error Declared :=
  let json := Jsonc.toJson text
  if Jsonc.isBlankDocument json then .ok {}
  else Json.readDocument (Json.readRecord fields {} {}) json

/-- The options that a file declares. -/
def load (t : FileTree) (p : Path) : Except Fault Declared :=
  match t.readLossy p with
  | .error e => .error (.configRead p e)
  | .ok text =>
    match parse text with
    | .ok d => .ok d
    | .error e => .error (.configParse p e)

end Declared

end ModuleMap
