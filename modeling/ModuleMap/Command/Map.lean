import ModuleMap.Command.Report

/-!
# Listing candidate paths

* `MapResult`: what is found for one specifier.
* `MapResult.lines`, `MapResult.toValue`: its two written forms.
* `Settings.map`: the command.
-/

namespace ModuleMap

/-- What is found for one specifier: the key of the rule and the candidates, if a rule applies. -/
structure MapResult where
  specifier : String
  mapped : Option (String × List Path)
  deriving DecidableEq, Repr

namespace MapResult

/-- What a mapper finds for a specifier. -/
def of (m : Mapper) (specifier : String) : MapResult :=
  ⟨specifier, (m.map? specifier).map fun (rule, candidates) => (rule.pattern.key, candidates)⟩

/-- The lines of numbered candidates. -/
def candidateLines : Nat → List Path → String
  | _, [] => ""
  | n, p :: ps => "  " ++ toString n ++ ". " ++ p.display ++ "\n" ++ candidateLines (n + 1) ps

/-- A result as lines of text. -/
def lines (r : MapResult) : String :=
  match r.mapped with
  | none => r.specifier ++ ": no mapping\n"
  | some (key, candidates) =>
    r.specifier ++ " (via \"" ++ key ++ "\")\n" ++
      if candidates.isEmpty then "  (rule has no outputs)\n" else candidateLines 1 candidates

/-- A result as a JSON value. -/
def toValue (r : MapResult) : Except String Json.Value := do
  let candidates ← ((r.mapped.map (·.2)).getD []).mapM Path.toValue
  return .object <|
    [("specifier", .string r.specifier), ("mapped", .bool r.mapped.isSome)] ++
    (r.mapped.map fun (key, _) => ("rule", .string key)).toList ++
    [("candidates", .array candidates)]

end MapResult

/-- The mapper of a config; without a config there are no rules. -/
def mapperOf : Option Tsconfig → Except Report Mapper
  | none => .ok {}
  | some c => c.mapper.mapError (.ofFault ["Invalid paths configuration"])

/-- The candidate paths of specifiers, as text or as JSON, once the config is loaded. -/
def Settings.map (s : Settings) (t : FileTree) (specifiers : List String) (json : Bool) :
    Option Printed :=
  (s.loadConfig t).map fun config => do
    let config ← config
    let mapper ← mapperOf config
    let results := specifiers.map (MapResult.of mapper)
    if json then
      document do
        let tsconfig ← Path.optionToValue (config.map (·.path))
        let baseUrl ←
          Path.optionToValue (if mapper.isEmpty then none else some mapper.baseDirectory)
        let results ← results.mapM MapResult.toValue
        return [("tsconfig", tsconfig), ("base_url", baseUrl), ("results", .array results)]
    else
      return String.join (results.map MapResult.lines)

end ModuleMap
