import ModuleMap.Json.Printer
import ModuleMap.Proofs.Tsconfig.Loading

/-!
# Which config an option is taken from

A loaded config has each option from the last of the visited configs that declares it, where the
configs are visited in post-order: first what a config extends, in order, then the config itself.
The options are independent of one another, so one may come from a config and another from the one
that extends it.

* `Visited`, `Postorder`: the configs visited, in post-order, with `Postorder.unique`.
* `lastDeclared`: what the last config that declares an option declares.
* `Tsconfig.VisitLaws`: how options may depend on the visits, so that they are known after loading
  by induction (`Tsconfig.VisitLaws.exists_postorder_of_loadChain`); `Tsconfig.mappingLaws` are the
  laws of the mapping options.
* `Tsconfig.load_eq_lastDeclared`: the same of a config that is loaded by itself.
-/

namespace ModuleMap

/-- A config that has been visited, with what it declares itself. -/
structure Visited where
  path : Path
  declared : Declared

/-- The base directory that a config declares, taken from the directory of that config. -/
def Visited.baseUrl? (v : Visited) : Option Path :=
  v.declared.mapping.baseUrl.map fun value => (v.path.directory.join value).normalize

/-- The `paths` entries that a config declares. -/
def Visited.paths? (v : Visited) : Option (List (String × List String)) :=
  v.declared.mapping.paths

/-- The configs visited in loading those at some paths, in post-order. -/
inductive Postorder (t : FileTree) : List Path → List Visited → Prop
  | nil : Postorder t [] []
  | cons {p : Path} {ps : List Path} {d : Declared} {below after : List Visited}
      (hd : Declared.load t p = .ok d) (hbelow : Postorder t (t.basesOf p d) below)
      (hafter : Postorder t ps after) : Postorder t (p :: ps) (below ++ ⟨p, d⟩ :: after)

/-- There is no more than one post-order. -/
theorem Postorder.unique {t : FileTree} {ps : List Path} {vs vs' : List Visited}
    (h : Postorder t ps vs) (h' : Postorder t ps vs') : vs = vs' := by
  induction h generalizing vs' with
  | nil =>
    cases h'
    rfl
  | cons hd _ _ ihbelow ihafter =>
    cases h' with
    | cons hd' hbelow' hafter' =>
      cases hd.symm.trans hd'
      rw [ihbelow hbelow', ihafter hafter']

theorem Postorder.iff_eq {t : FileTree} {ps : List Path} {vs : List Visited}
    (h : Postorder t ps vs) (ws : List Visited) : Postorder t ps ws ↔ ws = vs := by
  constructor
  · intro hws
    exact hws.unique h
  · rintro rfl
    exact h

/-- What the last config that declares an option declares. -/
def lastDeclared {α : Type} (option : Visited → Option α) (vs : List Visited) : Option α :=
  (vs.filterMap option).getLast?

section

variable {α : Type} (option : Visited → Option α)

@[simp] theorem lastDeclared_nil : lastDeclared option [] = none := rfl

theorem lastDeclared_append (vs ws : List Visited) :
    lastDeclared option (vs ++ ws) = (lastDeclared option ws).or (lastDeclared option vs) := by
  rw [lastDeclared, List.filterMap_append, List.getLast?_append]
  rfl

@[simp] theorem lastDeclared_singleton (v : Visited) : lastDeclared option [v] = option v := by
  cases h : option v <;> simp [lastDeclared, h]

/-- Nothing is declared last only if nothing is declared at all. -/
theorem lastDeclared_eq_none_iff (vs : List Visited) :
    lastDeclared option vs = none ↔ ∀ v ∈ vs, option v = none := by
  rw [lastDeclared, List.getLast?_eq_none_iff, List.filterMap_eq_nil_iff]

end

/-- The mapping options that the visited configs leave, over those that were there before. -/
def mappingAfter (earlier : MappingOptions) (vs : List Visited) : MappingOptions where
  baseUrl := (lastDeclared Visited.baseUrl? vs).or earlier.baseUrl
  paths := (lastDeclared Visited.paths? vs).or earlier.paths

theorem mappingAfter_append (earlier : MappingOptions) (vs ws : List Visited) :
    mappingAfter earlier (vs ++ ws) = mappingAfter (mappingAfter earlier vs) ws := by
  simp only [mappingAfter, lastDeclared_append, Option.or_assoc]

namespace Tsconfig

/-! ## Options along the visits -/

/-- The laws of a relation that says what some visits make of the options that were there before.
The two steps of loading are layering a config over others and declaring options. -/
structure VisitLaws (R : Tsconfig → List Visited → Tsconfig → Prop) : Prop where
  nil : ∀ c, R c [] c
  append : ∀ {a b c vs ws}, R a vs b → R b ws c → R a (vs ++ ws) c
  inherit : ∀ {earlier later vs}, R {} vs later → R earlier vs (earlier.inherit later)
  declare : ∀ inherited v, R inherited [v] (inherited.declare v.path.directory v.declared)

namespace VisitLaws

variable {R : Tsconfig → List Visited → Tsconfig → Prop} {t : FileTree}

theorem exists_postorder_of_layerAll (hR : VisitLaws R)
    {load : Path → Option (Except Fault Tsconfig)}
    (hload : ∀ p c, load p = some (.ok c) → ∃ vs, Postorder t [p] vs ∧ R {} vs c)
    {ps : List Path} {earlier c : Tsconfig} (h : layerAll load earlier ps = some (.ok c)) :
    ∃ vs, Postorder t ps vs ∧ R earlier vs c := by
  induction ps generalizing earlier with
  | nil =>
    cases h
    exact ⟨[], .nil, hR.nil _⟩
  | cons p ps ih =>
    obtain ⟨base, hbase, hrest⟩ := layerAll_cons_eq_ok_iff.mp h
    obtain ⟨vs, hvs, hlater⟩ := hload p base hbase
    obtain ⟨ws, hws, hc⟩ := ih hrest
    refine ⟨vs ++ ws, ?_, hR.append (hR.inherit hlater) hc⟩
    cases hvs with
    | cons hd hbelow hafter =>
      cases hafter
      rw [List.append_assoc]
      exact .cons hd hbelow hws

/-- A loaded config is what the visits make of no options. -/
theorem exists_postorder_of_loadChain (hR : VisitLaws R) {chain : List Path.Key} {p : Path}
    {c : Tsconfig} (h : loadChain t chain p = some (.ok c)) :
    ∃ vs, Postorder t [p] vs ∧ R {} vs c := by
  refine loadChain_induct (motive := fun _ p c => ∃ vs, Postorder t [p] vs ∧ R {} vs c)
    (fun load ih chain p d inherited hvisit hbases => ?_) h
  obtain ⟨vs, hvs, hinherited⟩ := hR.exists_postorder_of_layerAll (ih _) hbases
  have hd := (visit_eq_ok_iff.mp hvisit).2
  exact ⟨vs ++ [⟨p, d⟩], .cons hd hvs .nil, hR.append hinherited (hR.declare inherited ⟨p, d⟩)⟩

end VisitLaws

/-- The mapping options are left as `mappingAfter` says. -/
theorem mappingLaws :
    VisitLaws fun earlier vs c => c.mapping = mappingAfter earlier.mapping vs where
  nil _ := rfl
  append hvs hws := by rw [hws, hvs, mappingAfter_append]
  inherit hlater := by simp only [Tsconfig.inherit, hlater, mappingAfter, Option.or_none]
  declare inherited v := by
    -- What a config declares itself comes last.
    rw [mappingAfter, lastDeclared_singleton, lastDeclared_singleton]
    rfl

/-- The options of a loaded config are those that the configs visited leave. -/
theorem exists_postorder_of_loadChain {t : FileTree} {chain : List Path.Key} {p : Path}
    {c : Tsconfig} (h : loadChain t chain p = some (.ok c)) :
    ∃ vs, Postorder t [p] vs ∧ c.mapping = mappingAfter {} vs :=
  mappingLaws.exists_postorder_of_loadChain h

/-- **Each option is taken from the last config that declares it.**  The path of a loaded config is
the normal form of the path that was given.  In the only post-order of the configs visited from
there, the last one that declares a base directory gives it, taken from its own directory, and the
last one that declares `paths` entries gives these. -/
theorem load_eq_lastDeclared {t : FileTree} {p : Path} {c : Tsconfig}
    (h : load t p = some (.ok c)) :
    t.resolve p = .ok c.path ∧
      ∃ vs, (∀ ws, Postorder t [c.path] ws ↔ ws = vs) ∧
        c.mapping.baseUrl = lastDeclared Visited.baseUrl? vs ∧
        (c.mapping.baseUrl = none ↔ ∀ v ∈ vs, v.declared.mapping.baseUrl = none) ∧
        c.mapping.paths = lastDeclared Visited.paths? vs ∧
        (c.mapping.paths = none ↔ ∀ v ∈ vs, v.declared.mapping.paths = none) := by
  obtain ⟨path, c, hpath, hload, rfl⟩ := load_eq_ok_iff.mp h
  obtain ⟨vs, hvs, hmapping⟩ := exists_postorder_of_loadChain hload
  have hbaseUrl : c.mapping.baseUrl = lastDeclared Visited.baseUrl? vs := by
    simp only [hmapping, mappingAfter, Option.or_none]
  have hpaths : c.mapping.paths = lastDeclared Visited.paths? vs := by
    simp only [hmapping, mappingAfter, Option.or_none]
  refine ⟨hpath, vs, hvs.iff_eq, hbaseUrl, ?_, hpaths, ?_⟩
  · rw [hbaseUrl, lastDeclared_eq_none_iff]
    simp only [Visited.baseUrl?, Option.map_eq_none_iff]
  · rw [hpaths, lastDeclared_eq_none_iff]
    rfl

end Tsconfig

/-! ## Two configs that build on a third -/

/-- The file that holds a JSON value. -/
def configFile (members : List (String × Json.Value)) : Node :=
  .file (Text.encode (Json.Value.object members).compact.toList)

/-- Two configs that extend `base.json`, which is in a directory of its own, and one that extends
these two.  The second of them has a base directory that is null, and an empty table; the values
that it extends are given. -/
def twoSides (rightBases : List String) : FileTree where
  contents :=
    [(Text.encode "lib".toList, .directory
        [(Text.encode "base.json".toList, configFile
            [("compilerOptions", .object
                [("baseUrl", .string "src"),
                 ("paths", .object [("a", .array [.string "b"])])])])]),
     (Text.encode "left.json".toList, configFile
        [("extends", .string "./lib/base.json"),
         ("compilerOptions", .object [("baseUrl", .string "left")])]),
     (Text.encode "right.json".toList, configFile
        [("extends", .array (rightBases.map .string)),
         ("compilerOptions", .object [("baseUrl", .null), ("paths", .object [])])]),
     (Text.encode "app.json".toList, configFile
        [("extends", .array [.string "./left.json", .string "./right.json"])])]

/-- Both sides extend `base.json`. -/
def diamond : FileTree :=
  twoSides ["./lib/base"]

theorem Tsconfig.load_diamond :
    load diamond (.ofText "/app.json") =
      some (.ok
        { path := .ofText "/app.json", mapping := ⟨some (.ofText "/lib/src"), some []⟩ }) := by
  have hchain : (loadWithin diamond 3 [] (.ofText "/app.json")).bind Except.toOption =
      some { mapping := ⟨some (.ofText "/lib/src"), some []⟩ } := by decide +kernel
  exact load_of_loadWithin rfl hchain

/-- The base directory comes from the second visit to `base.json`, and is in the directory of that,
and the table, which is empty, comes from `right.json`. -/
theorem Tsconfig.load_eq_lastDeclared_diamond :
    load diamond (.ofText "/app.json") =
        some (.ok
          { path := .ofText "/app.json", mapping := ⟨some (.ofText "/lib/src"), some []⟩ }) ∧
      ∃ vs, Postorder diamond [.ofText "/app.json"] vs ∧
        lastDeclared Visited.baseUrl? vs = some (.ofText "/lib/src") ∧
        lastDeclared Visited.paths? vs = some [] := by
  obtain ⟨-, vs, hvs, hbaseUrl, -, hpaths, -⟩ := load_eq_lastDeclared load_diamond
  exact ⟨load_diamond, vs, (hvs vs).mpr rfl, hbaseUrl.symm, hpaths.symm⟩

end ModuleMap
