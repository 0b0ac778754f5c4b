/-!
# Comments

JSON with comments has `//` comments up to the end of the line and `/* */` comments, outside string
literals.  `stripComments` takes them out and leaves every line end where it is, so that lines are
counted alike before and after.

* `Jsonc.Region`: where in a text a character stands.
* `Jsonc.stripFrom`, `Jsonc.stripComments`: the text without its comments.
-/

namespace ModuleMap.Jsonc

/-- Where a character stands. -/
inductive Region where
  /-- Outside strings and comments. -/
  | code
  /-- Outside, after a slash that may begin a comment and has not been written yet. -/
  | slash
  /-- In a string literal. -/
  | quoted
  /-- In a string literal, after a backslash. -/
  | escaped
  /-- In a comment that ends with the line. -/
  | lineComment
  /-- In a comment that ends with a star and a slash; `star` says whether a star of the comment's
  own text came just before. -/
  | blockComment (star : Bool)
  deriving DecidableEq, Repr

/-- The region after a character of code that begins no comment. -/
def Region.afterCode (c : Char) : Region :=
  if c = '"' then .quoted else .code

/-- The region after a character of a string literal. -/
def Region.afterQuoted (c : Char) : Region :=
  if c = '\\' then .escaped else if c = '"' then .code else .quoted

/-- A text without its comments, if it starts in the given region. -/
def stripFrom : Region → List Char → List Char
  | .slash, [] => ['/']
  | _, [] => []
  | .code, c :: cs => if c = '/' then stripFrom .slash cs else c :: stripFrom (.afterCode c) cs
  | .slash, c :: cs =>
    if c = '/' then stripFrom .lineComment cs
    else if c = '*' then stripFrom (.blockComment false) cs
    else '/' :: c :: stripFrom (.afterCode c) cs
  | .quoted, c :: cs => c :: stripFrom (.afterQuoted c) cs
  | .escaped, c :: cs => c :: stripFrom .quoted cs
  | .lineComment, c :: cs =>
    if c = '\n' then '\n' :: stripFrom .code cs else stripFrom .lineComment cs
  | .blockComment star, c :: cs =>
    if star && c = '/' then stripFrom .code cs
    else if c = '\n' then '\n' :: stripFrom (.blockComment false) cs
    else stripFrom (.blockComment (c = '*')) cs

/-- A text without its comments.  A comment that is not closed reaches to the end. -/
def stripComments (text : List Char) : List Char :=
  stripFrom .code text

@[simp] theorem stripFrom_nil (r : Region) :
    stripFrom r [] = if r = .slash then ['/'] else [] := by
  cases r <;> rfl

theorem stripFrom_code_cons (c : Char) (cs : List Char) :
    stripFrom .code (c :: cs) =
      if c = '/' then stripFrom .slash cs else c :: stripFrom (.afterCode c) cs := rfl

theorem stripFrom_slash_cons (c : Char) (cs : List Char) :
    stripFrom .slash (c :: cs) =
      if c = '/' then stripFrom .lineComment cs
      else if c = '*' then stripFrom (.blockComment false) cs
      else '/' :: c :: stripFrom (.afterCode c) cs := rfl

@[simp] theorem stripFrom_quoted_cons (c : Char) (cs : List Char) :
    stripFrom .quoted (c :: cs) = c :: stripFrom (.afterQuoted c) cs := rfl

@[simp] theorem stripFrom_escaped_cons (c : Char) (cs : List Char) :
    stripFrom .escaped (c :: cs) = c :: stripFrom .quoted cs := rfl

theorem stripFrom_lineComment_cons (c : Char) (cs : List Char) :
    stripFrom .lineComment (c :: cs) =
      if c = '\n' then '\n' :: stripFrom .code cs else stripFrom .lineComment cs := rfl

theorem stripFrom_blockComment_cons (star : Bool) (c : Char) (cs : List Char) :
    stripFrom (.blockComment star) (c :: cs) =
      if star && c = '/' then stripFrom .code cs
      else if c = '\n' then '\n' :: stripFrom (.blockComment false) cs
      else stripFrom (.blockComment (c = '*')) cs := rfl

end ModuleMap.Jsonc
