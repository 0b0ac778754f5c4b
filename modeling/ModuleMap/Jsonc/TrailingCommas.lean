import ModuleMap.Text.Blank

/-!
# Trailing commas

`stripTrailingCommas` takes out each comma that stands directly before a closing brace or bracket,
blanks between them not counting.  It knows string literals but no comments, which are to be taken
out first.

* `Jsonc.closesNext`: whether the next character that is not blank closes an object or array.
* `Jsonc.Quoting`, `Jsonc.dropCommasFrom`, `Jsonc.stripTrailingCommas`: the text without the commas.
-/

namespace ModuleMap.Jsonc

/-- Whether the next character that is not blank closes an object or array. -/
def closesNext (cs : List Char) : Bool :=
  match cs.find? (!Text.isBlank ·) with
  | some c => c == '\x7d' || c == ']'
  | none => false

/-- Where a character stands with regard to string literals. -/
inductive Quoting where
  /-- Outside. -/
  | outside
  /-- Inside. -/
  | inside
  /-- Inside, after a backslash. -/
  | escaped
  deriving DecidableEq, Repr

/-- How a character changes where the next one stands. -/
def Quoting.after (c : Char) : Quoting → Quoting
  | .outside => if c = '"' then .inside else .outside
  | .inside => if c = '\\' then .escaped else if c = '"' then .outside else .inside
  | .escaped => .inside

/-- A text without its trailing commas, if it starts where `q` says. -/
def dropCommasFrom (q : Quoting) : List Char → List Char
  | [] => []
  | c :: cs =>
    if q = .outside ∧ c = ',' ∧ closesNext cs = true then dropCommasFrom q cs
    else c :: dropCommasFrom (q.after c) cs

@[simp] theorem dropCommasFrom_nil (q : Quoting) : dropCommasFrom q [] = [] := rfl

theorem dropCommasFrom_cons (q : Quoting) (c : Char) (cs : List Char) :
    dropCommasFrom q (c :: cs) =
      if q = .outside ∧ c = ',' ∧ closesNext cs = true then dropCommasFrom q cs
      else c :: dropCommasFrom (q.after c) cs := rfl

/-- Where a comma would be dropped, a blank comes next or what closes an object or array. -/
theorem isBlank_or_closes_of_closesNext {cs : List Char} (h : closesNext cs = true) {c : Char}
    (hc : c ∈ (dropCommasFrom .outside cs).head?) :
    Text.isBlank c = true ∨ c = '\x7d' ∨ c = ']' := by
  cases cs with
  | nil => cases h
  | cons d cs =>
    have hcomma : d ≠ ',' := by
      rintro rfl
      cases h
    rw [dropCommasFrom_cons, if_neg fun hdrop => hcomma hdrop.2.1] at hc
    cases hc
    cases hblank : Text.isBlank c with
    | true => exact Or.inl rfl
    | false =>
      rw [closesNext, List.find?_cons_of_pos (by simp [hblank])] at h
      exact Or.inr (by simpa using h)

/-- A text without its trailing commas. -/
def stripTrailingCommas (text : List Char) : List Char :=
  dropCommasFrom .outside text

end ModuleMap.Jsonc
