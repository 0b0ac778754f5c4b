/-!
# What is wrong with a JSON text

* `Json.Category`: the text ends too early, is not JSON, or does not fit what is read from it.
* `Json.Error`: a category and the line that was reached.
-/

namespace ModuleMap.Json

/-- The kinds of failure in reading. -/
inductive Category where
  /-- The text ends too early. -/
  | incomplete
  /-- The text is not JSON. -/
  | malformed
  /-- The text is JSON so far, but holds a value of the wrong type. -/
  | mistyped
  deriving DecidableEq, Repr

/-- The word for the kind of failure. -/
def Category.word : Category → String
  | incomplete => "eof"
  | malformed => "syntax"
  | mistyped => "data"

/-- A failure in reading and the line, counted from one, that was reached. -/
structure Error where
  category : Category
  line : Nat
  deriving DecidableEq, Repr

/-- The text of the error. -/
def Error.message (e : Error) : String :=
  "<json " ++ e.category.word ++ " error at line " ++ toString e.line ++ ">"

end ModuleMap.Json
