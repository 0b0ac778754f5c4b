import ModuleMap.Jsonc.Comments
import ModuleMap.Jsonc.TrailingCommas

/-!
# Documents with comments and trailing commas

* `Jsonc.toJson`: the JSON text that such a document stands for.
* `Jsonc.isBlankDocument`: whether nothing is left of it.
-/

namespace ModuleMap.Jsonc

/-- The JSON text that a document stands for: without byte order marks at its start, comments and
trailing commas. -/
def toJson (text : List Char) : List Char :=
  stripTrailingCommas (stripComments (text.dropWhile (· == '\uFEFF')))

/-- Whether a text has no character that is not blank. -/
def isBlankDocument (text : List Char) : Bool :=
  text.all Text.isBlank

end ModuleMap.Jsonc
