import ModuleMap.Proofs.Mapping.Compilation
import ModuleMap.Proofs.Path.NormalForm
import ModuleMap.Proofs.Tsconfig.ModuleTypes

/-!
# Candidates of a loaded config

A config may be found under a path that is not in normal form, since places in `node_modules` are
joined as they are written; and what it declares is any text.  Still no candidate path is relative
or holds a `..`.  The path of a config starts at the root, and so do those of all that it extends;
a base directory is brought into normal form when it is declared; and joining an output to it leads
to a normal form again.  A base directory is never empty either, so a mapper lacks one only if no
config has declared any.

* `FileTree.isNormal_of_resolve`, `Tsconfig.isNormal_baseUrl`: the path of a loaded config, and its
  base directory.
* `Mapper.ofOptions_eq_baseUrlRequired_iff`: when a mapper lacks a base directory.
* `Mapper.exists_output_of_map?`: where candidates come from.
* `Tsconfig.load_isNormal`: all of this for a loaded config.
-/

namespace ModuleMap

/-! ## Base directories -/

/-- Resolved paths are in normal form. -/
theorem FileTree.isNormal_of_resolve {t : FileTree} {p path : Path} (h : t.resolve p = .ok path) :
    path.IsNormal := by
  obtain ⟨q, hq, rfl⟩ := exists_normalize_of_resolve h
  exact Path.isNormal_normalize hq

/-- The base directory of configs that are visited from an absolute path is in normal form. -/
theorem Tsconfig.isNormal_baseUrl {t : FileTree} {p base : Path} {vs : List Visited}
    (hvs : Postorder t [p] vs) (hp : p.isAbsolute = true)
    (hbase : lastDeclared Visited.baseUrl? vs = some base) : base.IsNormal := by
  obtain ⟨v, hv, hdeclared⟩ := List.mem_filterMap.mp (List.mem_of_getLast? hbase)
  obtain ⟨value, -, rfl⟩ := Option.map_eq_some_iff.mp hdeclared
  have hpath : v.path.isAbsolute = true := hvs.isAbsolute (by simpa using hp) v hv
  exact Path.isNormal_normalize (Path.isAbsolute_join (Path.isAbsolute_directory hpath) value)

/-! ## Mappers -/

namespace Mapper

/-- A mapper lacks a base directory if there are entries and none that is not empty is given. -/
theorem ofOptions_eq_baseUrlRequired_iff {o : MappingOptions} :
    ofOptions o = .error .baseUrlRequired ↔
      o.paths.getD [] ≠ [] ∧ o.baseUrl.filter (· ≠ .empty) = none := by
  rw [ofOptions_eq_error_iff, MappingOptions.filter_baseUrl_eq_none_iff]
  simp

/-- Candidates are outputs joined to the base directory, and only a mapper that has rules gives
any. -/
theorem exists_output_of_map? {m : Mapper} {s : String} {rule : Rule} {candidates : List Path}
    (h : m.map? s = some (rule, candidates)) {q : Path} (hq : q ∈ candidates) :
    m.rules ≠ [] ∧ ∃ output, q = m.baseDirectory.joinNormalized (.ofText output) := by
  have hrules : m.rules ≠ [] := by
    intro hnil
    rw [map?_of_rules_eq_nil hnil] at h
    cases h
  unfold map? at h
  split at h
  · cases h
  · obtain ⟨⟨r, captured⟩, -, heq⟩ := Option.map_eq_some_iff.mp h
    cases heq
    obtain ⟨output, -, rfl⟩ := List.mem_map.mp hq
    exact ⟨hrules, output, rfl⟩

end Mapper

namespace Tsconfig

variable {t : FileTree}

/-- **All paths of a loaded config are in normal form.**  So is the path of the config itself, its
base directory, and whatever candidate its mapper gives for a specifier.  There is no mapper for
want of a base directory if and only if there are entries and none of the configs visited declares
one. -/
theorem load_isNormal {p : Path} {c : Tsconfig} (h : load t p = some (.ok c)) :
    c.path.IsNormal ∧
      (∀ base, c.mapping.baseUrl = some base → base.IsNormal) ∧
      (∃ vs, (∀ ws, Postorder t [c.path] ws ↔ ws = vs) ∧
        (c.mapper = .error .baseUrlRequired ↔
          c.mapping.paths.getD [] ≠ [] ∧ ∀ v ∈ vs, v.declared.mapping.baseUrl = none)) ∧
      ∀ m, c.mapper = .ok m → ∀ s rule candidates, m.map? s = some (rule, candidates) →
        ∀ q ∈ candidates, q.IsNormal := by
  obtain ⟨path, c, hpath, hload, rfl⟩ := load_eq_ok_iff.mp h
  obtain ⟨vs, hvs, hmapping⟩ := exists_postorder_of_loadChain hload
  have hnormal := FileTree.isNormal_of_resolve hpath
  have hbaseUrl : c.mapping.baseUrl = lastDeclared Visited.baseUrl? vs := by
    simp only [hmapping, mappingAfter, Option.or_none]
  have hbase : ∀ base, c.mapping.baseUrl = some base → base.IsNormal :=
    fun base hsome => isNormal_baseUrl hvs hnormal.isAbsolute (hbaseUrl ▸ hsome)
  have hfilter : c.mapping.baseUrl.filter (· ≠ .empty) = c.mapping.baseUrl := by
    cases hsome : c.mapping.baseUrl with
    | none => rfl
    | some base =>
      have hne : base ≠ .empty := by
        rintro rfl
        cases (hbase _ hsome).isAbsolute
      simp [Option.filter, hne]
  refine ⟨hnormal, hbase, ⟨vs, hvs.iff_eq, ?_⟩, ?_⟩
  · show Mapper.ofOptions c.mapping = _ ↔ _
    rw [Mapper.ofOptions_eq_baseUrlRequired_iff, hfilter, hbaseUrl, lastDeclared_eq_none_iff]
    simp only [Visited.baseUrl?, Option.map_eq_none_iff]
  · intro m hm s rule candidates hmap q hq
    obtain ⟨hrules, output, rfl⟩ := Mapper.exists_output_of_map? hmap hq
    have hdirectory := hbase _ (Mapper.baseUrl_of_ofOptions hm hrules)
    exact Path.isNormal_joinNormalized hdirectory.isAbsolute _

/-- A config that extends another one by a detour through `node_modules`. -/
def detouredBase : FileTree where
  contents :=
    [(Text.encode "app.json".toList, configFile
        [("extends", .string "tools/../base"),
         ("compilerOptions", .object [("paths", .object [("a*", .array [.string "/../*/."])])])]),
     (Text.encode "node_modules".toList, .directory
        [(Text.encode "tools".toList, .directory []),
         (Text.encode "base".toList, .directory
          [(Text.encode "tsconfig.json".toList, configFile
            [("compilerOptions", .object [("baseUrl", .string ".././../..//lib/")])])])])]

/-- The config that is loaded from `app.json`. -/
def detouredConfig : Tsconfig where
  path := .ofText "/app.json"
  mapping := { baseUrl := some (.ofText "/lib/"), paths := some [("a*", ["/../*/."])] }
  moduleTypes := []
  moduleTypesBase := .empty

/-- The rule of its mapper. -/
def detouredRule : Rule := ⟨.wildcard "a" "", ["/../*/."]⟩

/-- The base directory is `/lib/`, and no capture leads out of the root. -/
theorem load_isNormal_detouredBase :
    ∃ m, load detouredBase (.ofText "/app.json") = some (.ok detouredConfig) ∧
      detouredConfig.mapper = .ok m ∧
      m.map? "a/../../..//b" = some (detouredRule, [.ofText "/b"]) ∧
      (Path.ofText "/app.json").IsNormal ∧ (Path.ofText "/lib/").IsNormal ∧
      (Path.ofText "/b").IsNormal := by
  have hchain : (loadWithin detouredBase 3 [] (.ofText "/app.json")).bind Except.toOption =
      some { detouredConfig with path := .empty } := by decide +kernel
  have hload : load detouredBase (.ofText "/app.json") = some (.ok detouredConfig) :=
    load_of_loadWithin rfl hchain
  have hmapper : detouredConfig.mapper = .ok ⟨.ofText "/lib/", [detouredRule]⟩ := by rfl
  have hmap : Mapper.map? ⟨.ofText "/lib/", [detouredRule]⟩ "a/../../..//b" =
      some (detouredRule, [.ofText "/b"]) := by decide +kernel
  obtain ⟨hpath, hbase, -, hcandidate⟩ := load_isNormal hload
  exact ⟨_, hload, hmapper, hmap, hpath, hbase _ rfl,
    hcandidate _ hmapper _ _ _ hmap _ (List.mem_singleton_self _)⟩

end Tsconfig

end ModuleMap
