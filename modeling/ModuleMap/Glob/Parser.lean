import ModuleMap.Glob.Basic

/-!
# The spelling of globs

`?` stands for one character, `*` for any text within a component, `**` for any number of
components, `[...]` for one of the listed characters and `[!...]` for one that is not listed.  All
else stands for itself.

* `Glob.Error`: what is wrong with a spelling, and where.
* `Glob.parse`: the glob that a text spells.
-/

namespace ModuleMap.Glob

/-- What can be wrong with the spelling of a glob. -/
inductive Fault where
  /-- Three or more stars in a row. -/
  | tooManyStars
  /-- Two stars that are not a component of their own. -/
  | partialComponent
  /-- A bracket that is not closed. -/
  | unclosedClass
  deriving DecidableEq, Repr

/-- The explanation of a fault. -/
def Fault.reason : Fault → String
  | tooManyStars => "wildcards are either regular `*` or recursive `**`"
  | partialComponent => "recursive wildcards must form a single path component"
  | unclosedClass => "invalid range pattern"

/-- A fault and the position of the character, counted from zero, where it was noticed. -/
structure Error where
  position : Nat
  fault : Fault
  deriving DecidableEq, Repr

/-- The text of the error. -/
def Error.message (e : Error) : String :=
  "Pattern syntax error near position " ++ toString e.position ++ ": " ++ e.fault.reason

/-- The entries of a class: `a-z` is a range wherever there are three characters for it. -/
def classEntries : List Char → List ClassEntry
  | first :: '-' :: last :: cs => .range first last :: classEntries cs
  | c :: cs => .one c :: classEntries cs
  | [] => []

/-- The text before the next closing bracket and the text after it. -/
def splitClass? : List Char → Option (List Char × List Char)
  | [] => none
  | c :: cs => if c = ']' then some ([], cs) else (splitClass? cs).map fun (a, b) => (c :: a, b)

/-- The class after its opening bracket, and the text after it.  The
first listed character is listed even if it is a closing bracket. -/
def parseClass? : List Char → Option (Part × List Char)
  | '!' :: first :: cs =>
    (splitClass? cs).map fun (listed, rest) => (.noneOf (classEntries (first :: listed)), rest)
  | '!' :: [] => none
  | first :: cs =>
    (splitClass? cs).map fun (listed, rest) => (.oneOf (classEntries (first :: listed)), rest)
  | [] => none

/-- The part that stars spell, the text after it, or the fault.  `index` is the position of the
first star, `startsComponent` says whether a component starts there, and `more` is the text after
the first star. -/
def parseStars (index : Nat) (startsComponent : Bool) (more : List Char) :
    Except Error (Part × List Char) :=
  match more with
  | '*' :: '*' :: _ => .error ⟨index + 2, .tooManyStars⟩
  | '*' :: rest =>
    if startsComponent then
      match rest with
      | [] => .ok (.anyComponents, [])
      | '/' :: rest => .ok (.anyComponents, rest)
      | _ => .error ⟨index + 2, .partialComponent⟩
    else .error ⟨index - 1, .partialComponent⟩
  | rest => .ok (.anyName, rest)

/-- The parts that the end of a text spells.  `total` is the length of the whole text, and
`startsComponent` says whether a path component starts where the end does.  Each step takes at least
one character. -/
def parseFrom (total : Nat) : Nat → Bool → List Char → Except Error Glob
  | 0, _, _ => .ok []
  | _ + 1, _, [] => .ok []
  | fuel + 1, startsComponent, c :: cs =>
    let index := total - (cs.length + 1)
    if c = '?' then do
      return .anyOne :: (← parseFrom total fuel false cs)
    else if c = '*' then do
      let (part, rest) ← parseStars index startsComponent cs
      return part :: (← parseFrom total fuel (part = .anyComponents) rest)
    else if c = '[' then
      match parseClass? cs with
      | some (part, rest) => do
        return part :: (← parseFrom total fuel false rest)
      | none => .error ⟨index, .unclosedClass⟩
    else do
      return .literal c :: (← parseFrom total fuel (c = '/') cs)

/-- The glob that a text spells, or the first fault from the left. -/
def parse (text : List Char) : Except Error Glob :=
  parseFrom text.length text.length true text

end ModuleMap.Glob
