import ModuleMap.Command.Report
import ModuleMap.Format

/-!
# Classifying files

* `ClassifyResult`: what is found for one file.
* `ClassifyResult.line`, `ClassifyResult.toValue`: its two written forms.
* `classifyAll`: files classified one after the other, with one cache.
* `Settings.classify`: the command.
-/

namespace ModuleMap

/-- What is found for one file. -/
structure ClassifyResult where
  path : Path
  format : ModuleFormat
  /-- The kind that an override gives the file. -/
  forced : Option ModuleKind
  deriving DecidableEq, Repr

namespace ClassifyResult

/-- A result as a line of text. -/
def line (r : ClassifyResult) : String :=
  let note :=
    match r.forced with
    | some kind => " (moduleTypes: " ++ kind.word ++ ")"
    | none => ""
  r.path.display ++ ": " ++ r.format.word ++ note ++ "\n"

/-- A result as a JSON value. -/
def toValue (r : ClassifyResult) : Except String Json.Value := do
  let path ← r.path.toValue
  return .object <|
    [("path", path), ("format", .string r.format.word)] ++
    (r.forced.map fun kind => ("override", .string kind.word)).toList

end ClassifyResult

/-- The results for paths, or the fault of the first that cannot be classified. -/
def classifyAll (t : FileTree) (o : Overrides) (packageScoped : Bool) :
    ScopeCache → List Path → Except Report (List ClassifyResult)
  | _, [] => .ok []
  | c, p :: ps =>
    match ModuleFormat.resolve t o c p packageScoped with
    | (.error f, _) => .error (.ofFault ["Failed to classify " ++ p.display] f)
    | (.ok format, c) => do
      return ⟨p, format, o.lookup? p⟩ :: (← classifyAll t o packageScoped c ps)

/-- The overrides of a config; without a config there are none. -/
def overridesOf : Option Tsconfig → Except Report Overrides
  | none => .ok {}
  | some c => c.overrides.mapError (.ofFault ["Invalid moduleTypes configuration"])

/-- The formats of files, as text or as JSON, once the config is loaded. -/
def Settings.classify (s : Settings) (t : FileTree) (files : List Path)
    (packageScoped json : Bool) : Option Printed :=
  (s.loadConfig t).map fun config => do
    let overrides ← overridesOf (← config)
    let results ← classifyAll t overrides packageScoped .empty (files.map (s.absoluteInput t))
    if json then
      document do
        let results ← results.mapM ClassifyResult.toValue
        return [("package_scope", .bool packageScoped), ("results", .array results)]
    else
      return String.join (results.map ClassifyResult.line)

end ModuleMap
