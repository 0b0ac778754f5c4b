/-!
# Globs

A glob is a sequence of parts, each of which stands for some texts; a glob matches a text if the
text can be cut into pieces that its parts stand for, in order.

* `Glob.Part`: the parts.
* `Glob.accepts`: what it means for a glob to match a text.
* `Glob.matchesText`: whether it does, found without trying pieces again and again;
  `Glob.matchesText_eq` says that this is the same.
* `Glob.escape`: the spelling of a text as a glob that matches just this text.
-/

namespace ModuleMap

namespace Glob

/-- The characters listed by one entry of a class. -/
inductive ClassEntry where
  | one (c : Char)
  | range (first last : Char)
  deriving DecidableEq, Repr

/-- Whether an entry lists a character. -/
def ClassEntry.lists (c : Char) : ClassEntry → Bool
  | one d => c == d
  | range first last => first ≤ c && c ≤ last

/-- The parts of a glob. -/
inductive Part where
  /-- This character. -/
  | literal (c : Char)
  /-- Any one character but a slash. -/
  | anyOne
  /-- One of the listed characters, but not a slash. -/
  | oneOf (entries : List ClassEntry)
  /-- One character that is not listed, but not a slash. -/
  | noneOf (entries : List ClassEntry)
  /-- Any text without a slash. -/
  | anyName
  /-- Any number of whole path components, each with the slash after it; at the end of a text, any
  text. -/
  | anyComponents
  deriving DecidableEq, Repr

/-- Whether a part that stands for single characters stands for this one. -/
def Part.admits (c : Char) : Part → Bool
  | literal d => c == d
  | anyOne => c != '/'
  | oneOf entries => c != '/' && entries.any (·.lists c)
  | noneOf entries => c != '/' && !entries.any (·.lists c)
  | anyName | anyComponents => false

end Glob

/-- A glob as the sequence of its parts. -/
abbrev Glob := List Glob.Part

namespace Glob

/-! ## Matching -/

/-- Whether `rest` accepts what is left of a text after some characters without a slash. -/
def afterName (rest : List Char → Bool) : List Char → Bool
  | [] => rest []
  | c :: cs => rest (c :: cs) || (c != '/' && afterName rest cs)

/-- Whether `rest` accepts what is left of a text after some later slash, or nothing. -/
def afterSlash (rest : List Char → Bool) : List Char → Bool
  | [] => rest []
  | c :: cs => (c == '/' && rest cs) || afterSlash rest cs

/-- Whether a glob matches a whole text. -/
def accepts : Glob → List Char → Bool
  | [], cs => cs.isEmpty
  | .anyName :: ps, cs => afterName (accepts ps) cs
  | .anyComponents :: ps, cs => accepts ps cs || afterSlash (accepts ps) cs
  | _ :: _, [] => false
  | p :: ps, c :: cs => p.admits c && accepts ps cs

/-!
## Matching all ends of a text at once

Trying the pieces one after the other takes time exponential in the number of stars.  A row tells
for each end of a text, from the whole text down to the empty one, whether the rest of a glob
matches it; each part turns a row into the next one.
-/

/-- A text and its ends, longest first. -/
def ends : List Char → List (List Char)
  | [] => [[]]
  | c :: cs => (c :: cs) :: ends cs

/-- The row before a part that stands for single characters. -/
def rowBeforeOne (p : Part) : List Char → List Bool → List Bool
  | c :: cs, _ :: row => (p.admits c && row.headD false) :: rowBeforeOne p cs row
  | _, _ => [false]

/-- The row before any text without a slash. -/
def rowBeforeName : List Char → List Bool → List Bool
  | c :: cs, b :: row =>
    let later := rowBeforeName cs row
    (b || (c != '/' && later.headD false)) :: later
  | _, row => row

/-- The row before any text that a slash ends, or that is all. -/
def rowBeforeSlash : List Char → List Bool → List Bool
  | c :: cs, _ :: row =>
    let later := rowBeforeSlash cs row
    ((c == '/' && row.headD false) || later.headD false) :: later
  | _, row => row

/-- The row of a glob. -/
def row : Glob → List Char → List Bool
  | [], cs => (ends cs).map List.isEmpty
  | .anyName :: ps, cs => rowBeforeName cs (row ps cs)
  | .anyComponents :: ps, cs =>
    let later := row ps cs
    later.zipWith (· || ·) (rowBeforeSlash cs later)
  | p :: ps, cs => rowBeforeOne p cs (row ps cs)

/-- Whether a glob matches a whole text, found through rows. -/
def matchesText (g : Glob) (cs : List Char) : Bool :=
  (row g cs).headD false

theorem headD_map_ends (f : List Char → Bool) (cs : List Char) :
    ((ends cs).map f).headD false = f cs := by
  cases cs <;> rfl

theorem rowBeforeName_map_ends (f : List Char → Bool) (cs : List Char) :
    rowBeforeName cs ((ends cs).map f) = (ends cs).map (afterName f) := by
  induction cs with
  | nil => rfl
  | cons c cs ih => simp only [ends, List.map_cons, rowBeforeName, ih, headD_map_ends, afterName]

theorem rowBeforeSlash_map_ends (f : List Char → Bool) (cs : List Char) :
    rowBeforeSlash cs ((ends cs).map f) = (ends cs).map (afterSlash f) := by
  induction cs with
  | nil => rfl
  | cons c cs ih => simp only [ends, List.map_cons, rowBeforeSlash, ih, headD_map_ends, afterSlash]

/-- A part that stands for single characters is tried at the first character. -/
theorem rowBeforeOne_map_ends (p : Part) (f g : List Char → Bool) (nil : g [] = false)
    (cons : ∀ c cs, g (c :: cs) = (p.admits c && f cs)) (cs : List Char) :
    rowBeforeOne p cs ((ends cs).map f) = (ends cs).map g := by
  induction cs with
  | nil => simp [ends, rowBeforeOne, nil]
  | cons c cs ih => simp only [ends, List.map_cons, rowBeforeOne, ih, headD_map_ends, cons]

theorem zipWith_or_map (f g : List Char → Bool) (l : List (List Char)) :
    (l.map f).zipWith (· || ·) (l.map g) = l.map fun cs => f cs || g cs := by
  induction l with
  | nil => rfl
  | cons a l ih => simp only [List.map_cons, List.zipWith_cons_cons, ih]

/-- A row tells for each end whether the glob matches it. -/
theorem row_eq (g : Glob) (cs : List Char) : row g cs = (ends cs).map (accepts g) := by
  induction g generalizing cs with
  | nil => simp only [row, funext fun t => show accepts [] t = t.isEmpty from rfl]
  | cons p ps ih =>
    cases p with
    | anyName => simp only [row, ih, rowBeforeName_map_ends, accepts]
    | anyComponents => simp only [row, ih, rowBeforeSlash_map_ends, zipWith_or_map, accepts]
    | literal _ | anyOne | oneOf _ | noneOf _ =>
      simp only [row, ih]
      exact rowBeforeOne_map_ends _ _ _ rfl (fun _ _ => rfl) cs

/-- Rows find what trying the pieces finds. -/
theorem matchesText_eq (g : Glob) (cs : List Char) : matchesText g cs = accepts g cs := by
  rw [matchesText, row_eq, headD_map_ends]

/-! ## Escaping -/

/-- Whether a character has a meaning of its own in the spelling of globs. -/
def isSpecial (c : Char) : Bool :=
  c == '?' || c == '*' || c == '[' || c == ']'

/-- A text spelled as a glob: each character with a meaning of its own stands alone in brackets. -/
def escape (cs : List Char) : List Char :=
  cs.flatMap fun c => if isSpecial c then ['[', c, ']'] else [c]

@[simp] theorem escape_nil : escape [] = [] := rfl

@[simp] theorem escape_cons (c : Char) (cs : List Char) :
    escape (c :: cs) = (if isSpecial c then ['[', c, ']'] else [c]) ++ escape cs := rfl

@[simp] theorem escape_append (cs ds : List Char) : escape (cs ++ ds) = escape cs ++ escape ds :=
  List.flatMap_append

end Glob

end ModuleMap
