import ModuleMap.Mapping.Options
import ModuleMap.Mapping.Pattern

/-!
# Mapping specifiers to candidate paths

A mapper is made from a base directory and the `paths` entries, and gives for a specifier the paths
to be tried, in order.  It looks at no file.  An exact key is preferred to every key with a star, of
those the one with the longest text before the star, and of equal ones the first.

* `Rule`, `Rule.ofEntry`, `Rule.outputsFor`: one entry.
* `Mapper.ofOptions`: the mapper, or why there is none.
* `Mapper.best?`, `Mapper.map?`: the rule for a specifier and the candidates it gives.
-/

namespace ModuleMap

/-- A pattern and the templates of its outputs. -/
structure Rule where
  pattern : Pattern
  outputs : List String
  deriving DecidableEq, Repr

namespace Rule

/-- The rule of a `paths` entry. -/
def ofEntry (entry : String × List String) : Except Fault Rule := do
  return ⟨← Pattern.parse entry.1, entry.2⟩

/-- The outputs with the captured text in place of the first star of each. -/
def outputsFor (r : Rule) (captured : String) : List String :=
  r.outputs.map (fillStar · captured)

end Rule

/-- Rules and the directory that their outputs are joined to. -/
structure Mapper where
  baseDirectory : Path := .empty
  rules : List Rule := []
  deriving DecidableEq, Repr

namespace Mapper

/-- The mapper of the given options.  Entries need a base directory; without entries the mapper has
no rules, and none is needed. -/
def ofOptions (o : MappingOptions) : Except Fault Mapper :=
  match o.paths.getD [] with
  | [] => .ok {}
  | entry :: entries =>
    match o.baseUrl.filter (· ≠ .empty) with
    | none => .error .baseUrlRequired
    | some base => do
      return ⟨base, ← (entry :: entries).mapM Rule.ofEntry⟩

/-- Whether a mapper has no rules. -/
def isEmpty (m : Mapper) : Bool :=
  m.rules.isEmpty

/-- The better of the best match so far and the match of a rule: the later one only if it is more
specific. -/
def better (specifier : String) (best : Option (Rule × String)) (r : Rule) :
    Option (Rule × String) :=
  match r.pattern.capture? specifier, best with
  | none, _ => best
  | some captured, none => some (r, captured)
  | some captured, some (b, text) =>
    if r.pattern.specificity.compare b.pattern.specificity = .gt then some (r, captured)
    else some (b, text)

/-- The rule that a specifier is mapped by, and what it captures. -/
def best? (m : Mapper) (specifier : String) : Option (Rule × String) :=
  m.rules.foldl (better specifier) none

/-- The rule for a specifier and the candidate paths that it gives.  A relative specifier has
none. -/
def map? (m : Mapper) (specifier : String) : Option (Rule × List Path) :=
  if specifier.toList.head? = some '.' then none
  else
    (m.best? specifier).map fun (rule, captured) =>
      (rule, (rule.outputsFor captured).map fun output =>
        m.baseDirectory.joinNormalized (.ofText output))

end Mapper

end ModuleMap
