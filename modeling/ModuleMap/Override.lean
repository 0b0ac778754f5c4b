import ModuleMap.Fault
import ModuleMap.Json.Reader

/-!
# Module type overrides

A project can force the module kind of files by globs, taken relative to the directory of the config
that declares them.  Of several that match a file the one declared last counts.

* `ModuleKind`, `ModuleKind.parse`: the kinds that can be forced, and their spelling in JSON.
* `Overrides.anchored`: a key placed below its directory.
* `Overrides.compile`: the overrides of a list of entries, or the first entry that is no glob.
* `Overrides.lookup?`: the kind forced on a path.
-/

namespace ModuleMap

/-- The kinds that an override can force. -/
inductive ModuleKind where
  | cjs
  | esm
  /-- Whatever extension and package scope say. -/
  | package
  deriving DecidableEq, Repr

/-- The word for a kind. -/
def ModuleKind.word : ModuleKind → String
  | cjs => "cjs"
  | esm => "esm"
  | package => "package"

/-- The kinds by their words. -/
def ModuleKind.words : List (String × ModuleKind) :=
  [cjs, esm, package].map fun kind => (kind.word, kind)

/-- A kind. -/
def ModuleKind.read : Json.Reader ModuleKind :=
  Json.readChoice words

/-- The kind that a text spells. -/
def ModuleKind.parse (text : List Char) : Except Json.Error ModuleKind :=
  Json.readDocument read text

/-- An entry as it is declared. -/
structure OverrideEntry where
  key : String
  kind : ModuleKind
  deriving DecidableEq, Repr

/-- Compiled overrides, in the order in which they are declared. -/
structure Overrides where
  entries : List (Glob × ModuleKind) := []
  deriving DecidableEq, Repr

namespace Overrides

/-- A text without the slashes at its end. -/
def trimSlashes (cs : List Char) : List Char :=
  (cs.reverse.dropWhile (· == '/')).reverse

/-- The spelling of a glob for a key below a directory.  The name of the directory stands for
itself, whatever characters it has. -/
def anchored (base : Path) (key : String) : List Char :=
  trimSlashes (Glob.escape (Text.decodeLossy base.normalize.bytes)) ++ '/' :: key.toList

/-- The compiled form of one entry. -/
def compileEntry (base : Path) (entry : OverrideEntry) : Except Fault (Glob × ModuleKind) :=
  match Glob.parse (anchored base entry.key) with
  | .ok glob => .ok (glob, entry.kind)
  | .error e => .error (.overridePattern entry.key e)

/-- The overrides of entries declared for a directory. -/
def compile (base : Path) (entries : List OverrideEntry) : Except Fault Overrides := do
  return ⟨← entries.mapM (compileEntry base)⟩

/-- Whether there are no overrides. -/
def isEmpty (o : Overrides) : Bool :=
  o.entries.isEmpty

/-- The kind forced on a path, which is taken in normal form.  A path that is not UTF-8 matches
nothing. -/
def lookup? (o : Overrides) (p : Path) : Option ModuleKind := do
  let text ← Text.decode? p.normalize.bytes
  let entry ← o.entries.reverse.find? fun entry => Glob.matchesText entry.1 text
  return entry.2

end Overrides

end ModuleMap
