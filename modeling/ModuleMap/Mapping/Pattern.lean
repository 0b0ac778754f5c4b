import ModuleMap.Fault

/-!
# Patterns of `paths` keys

A key with no `*` matches only itself.  A key with one matches every specifier that begins with the
text before the star and ends with the text after it, and captures what is between.

* `Pattern.parse`, `Pattern.key`: a pattern from its key, and back.
* `Pattern.capture?`: the text that a pattern captures from a specifier.
* `Pattern.specificity`: which of two matching patterns is to be preferred.
* `fillStar`: a template with a text in the place of its first star.
-/

namespace ModuleMap

/-- The text before the first star and the text after it. -/
def splitStar? : List Char → Option (List Char × List Char)
  | [] => none
  | c :: cs => if c = '*' then some ([], cs) else (splitStar? cs).map fun (a, b) => (c :: a, b)

@[simp] theorem splitStar?_nil : splitStar? [] = none := rfl

theorem splitStar?_cons (c : Char) (cs : List Char) :
    splitStar? (c :: cs) =
      if c = '*' then some ([], cs) else (splitStar? cs).map fun (a, b) => (c :: a, b) := rfl

/-- A template with a text in the place of its first star; without a star it stays as it is. -/
def fillStar (template fill : String) : String :=
  match splitStar? template.toList with
  | some (before, after) => String.ofList (before ++ fill.toList ++ after)
  | none => template

/-- What comes after the text `start`, if a text begins with it. -/
def textAfter? : List Char → List Char → Option (List Char)
  | [], text => some text
  | _ :: _, [] => none
  | c :: start, d :: text => if c = d then textAfter? start text else none

/-- What comes before the text `ending`, if a text ends with it. -/
def textBefore? (ending text : List Char) : Option (List Char) :=
  (textAfter? ending.reverse text.reverse).map List.reverse

theorem textAfter?_eq_some_iff {start text rest : List Char} :
    textAfter? start text = some rest ↔ text = start ++ rest := by
  induction start generalizing text with
  | nil => simp [textAfter?, eq_comm]
  | cons c start ih =>
    cases text with
    | nil => simp [textAfter?]
    | cons d text =>
      by_cases h : c = d
      · simp [textAfter?, h, ih]
      · simp [textAfter?, h, Ne.symm h]

theorem textBefore?_eq_some_iff {ending text rest : List Char} :
    textBefore? ending text = some rest ↔ text = rest ++ ending := by
  rw [textBefore?, Option.map_eq_some_iff]
  constructor
  · rintro ⟨r, h, rfl⟩
    rw [textAfter?_eq_some_iff] at h
    simpa using congrArg List.reverse h
  · rintro rfl
    refine ⟨rest.reverse, ?_, List.reverse_reverse _⟩
    rw [textAfter?_eq_some_iff, List.reverse_append]

/-- A parsed `paths` key. -/
inductive Pattern where
  /-- Matches this text only. -/
  | static (text : String)
  /-- Matches `before`, any text, `after`. -/
  | wildcard (before after : String)
  deriving DecidableEq, Repr

/-- How specific a pattern is: static ones above all others, those by the bytes before the star. -/
inductive Specificity where
  | wildcard (bytes : Nat)
  | static
  deriving DecidableEq, Repr

/-- The order of specificity. -/
def Specificity.compare : Specificity → Specificity → Ordering
  | wildcard m, wildcard n => Ord.compare m n
  | wildcard _, static => .lt
  | static, wildcard _ => .gt
  | static, static => .eq

namespace Pattern

/-- The pattern of a key, which may have one star. -/
def parse (key : String) : Except Fault Pattern :=
  match splitStar? key.toList with
  | none => .ok (.static key)
  | some (before, after) =>
    if '*' ∈ after then .error (.twoWildcards key)
    else .ok (.wildcard (String.ofList before) (String.ofList after))

/-- The key that spells a pattern. -/
def key : Pattern → String
  | static text => text
  | wildcard before after => before ++ "*" ++ after

/-- What a pattern captures from a specifier that it matches: all of it for a static pattern, else
what is between the two fixed texts, which do not overlap. -/
def capture? (specifier : String) : Pattern → Option String
  | static text => if text = specifier then some specifier else none
  | wildcard before after => do
    let rest ← textAfter? before.toList specifier.toList
    let inner ← textBefore? after.toList rest
    return String.ofList inner

/-- How specific a pattern is. -/
def specificity : Pattern → Specificity
  | static _ => .static
  | wildcard before _ => .wildcard before.utf8ByteSize

end Pattern

end ModuleMap
