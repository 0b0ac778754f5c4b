import ModuleMap.Mapping.Mapper
import ModuleMap.Tsconfig.Declared
import ModuleMap.Tsconfig.Extends

/-!
# Loading configs

A config is loaded with everything that it extends.  Each option is inherited by itself: what a
later config declares replaces what was declared before, and a config comes after the ones it
extends.  Only the chain of configs being loaded counts for cycles, so two configs may both build on
a third.

* `Tsconfig`: a loaded config.
* `Tsconfig.inherit`, `Tsconfig.declare`: options replaced by later ones.
* `Tsconfig.visit`: what one config of a chain declares, or why the chain ends there.
* `Tsconfig.loadChain`: loading along a chain, which may have no end.
* `Tsconfig.load`: loading, which then has no answer.
* `Tsconfig.mapper`, `Tsconfig.overrides`: what the options are compiled to.
-/

namespace ModuleMap

/-- A loaded config. -/
structure Tsconfig where
  /-- The file that was loaded, not one that it extends. -/
  path : Path := .empty
  mapping : MappingOptions := {}
  moduleTypes : List OverrideEntry := []
  /-- The directory that the keys of `moduleTypes` are relative to. -/
  moduleTypesBase : Path := .empty
  deriving DecidableEq, Repr

namespace Tsconfig

/-- The options of `earlier`, replaced by those that `later` has. -/
def inherit (earlier later : Tsconfig) : Tsconfig where
  path := earlier.path
  mapping :=
    { baseUrl := later.mapping.baseUrl.or earlier.mapping.baseUrl
      paths := later.mapping.paths.or earlier.mapping.paths }
  moduleTypes := if later.moduleTypes.isEmpty then earlier.moduleTypes else later.moduleTypes
  moduleTypesBase :=
    if later.moduleTypes.isEmpty then earlier.moduleTypesBase else later.moduleTypesBase

/-- The inherited options, replaced by those that the config of a directory declares itself. -/
def declare (inherited : Tsconfig) (directory : Path) (d : Declared) : Tsconfig where
  path := inherited.path
  mapping :=
    { baseUrl :=
        (d.mapping.baseUrl.map fun v => (directory.join v).normalize).or inherited.mapping.baseUrl
      paths := d.mapping.paths.or inherited.mapping.paths }
  moduleTypes :=
    match d.moduleTypes with
    | some entries => entries.map fun (key, kind) => ⟨key, kind⟩
    | none => inherited.moduleTypes
  moduleTypesBase := if d.moduleTypes.isSome then directory else inherited.moduleTypesBase

/-- What the config at a path declares, where `chain` holds the keys of the configs that are being
loaded.  A config among those extends itself; that is looked at before the file is. -/
def visit (t : FileTree) (chain : List Path.Key) (p : Path) : Except Fault Declared :=
  if p.key ∈ chain then .error (.configCycle p) else Declared.load t p

/-- The config at a path and all it extends, where `chain` holds the keys of the configs that are
being loaded.  There is no answer where configs extend one another without end. -/
def loadChain (t : FileTree) (chain : List Path.Key) (p : Path) : Option (Except Fault Tsconfig) :=
  match visit t chain p with
  | .error f => some (.error f)
  | .ok d => do
    let inherited ← d.bases.foldlM
      (fun (earlier : Except Fault Tsconfig) value =>
        match earlier with
        | .error f => some (.error f)
        | .ok c => do
          -- The base is loaded with the config itself on the chain.
          let base ← (loadChain t (p := t.extended p.directory value)) (p.key :: chain)
          return base.map c.inherit)
      (.ok {})
    return inherited.map (·.declare p.directory d)
partial_fixpoint

/-- The config at a path and all it extends.  There is no answer where configs extend one another
without end. -/
def load (t : FileTree) (p : Path) : Option (Except Fault Tsconfig) :=
  match t.resolve p with
  | .error e => some (.error (.io e))
  | .ok path => (loadChain t [] path).map (·.map fun c => { c with path })

/-- The mapper of the options. -/
def mapper (c : Tsconfig) : Except Fault Mapper :=
  Mapper.ofOptions c.mapping

/-- The overrides of the options. -/
def overrides (c : Tsconfig) : Except Fault Overrides :=
  Overrides.compile c.moduleTypesBase c.moduleTypes

end Tsconfig

end ModuleMap
