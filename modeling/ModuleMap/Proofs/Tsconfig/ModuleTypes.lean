import ModuleMap.Proofs.FileTree.Spelling
import ModuleMap.Proofs.Tsconfig.Extended
import ModuleMap.Proofs.Tsconfig.Inheritance

/-!
# Which config the module types are taken from

Module types are kept as a list with a directory beside it, and a list with no entries counts as if
nothing had been declared.  That is not how the other options are inherited: a config may declare an
empty table, and it does so to get rid of the entries that it inherits.  Within that config the
empty table counts; in a config that extends it, it does not.

So the module types of a loaded config are those of the last visited config that declares any,
except where that declaration is empty and the config is not the loaded one itself.

* `Visited.moduleTypes?`: what a config declares, with its directory.
* `Tsconfig.moduleTypesLaws`: the entries that visits leave.
* `Tsconfig.IsTidy`: a config whose module types have a directory only if there are any, which is so
  of all inherited options (`Tsconfig.isTidy_of_layerAll`).
* `Tsconfig.load_moduleTypes_eq_iff`: when the last declaration is the one that counts.
* `Tsconfig.load_moduleTypes_not_cleared`: an empty table in an extended config that clears nothing.
-/

namespace ModuleMap

/-- The module types that a config declares, with the directory that their keys are relative to. -/
def Visited.moduleTypes? (v : Visited) : Option (List OverrideEntry × Path) :=
  v.declared.moduleTypes.map fun entries =>
    (entries.map fun (key, kind) => ⟨key, kind⟩, v.path.directory)

/-- Configs visited from absolute paths have absolute paths. -/
theorem Postorder.isAbsolute {t : FileTree} {ps : List Path} {vs : List Visited}
    (h : Postorder t ps vs) (hps : ∀ p ∈ ps, p.isAbsolute = true) :
    ∀ v ∈ vs, v.path.isAbsolute = true := by
  induction h with
  | nil => simp
  | @cons p ps d below after hd _ _ ihbelow ihafter =>
    rw [List.forall_mem_cons] at hps
    obtain ⟨hp, hps⟩ := hps
    have hbases : ∀ q ∈ t.basesOf p d, q.isAbsolute = true := by
      intro q hq
      obtain ⟨value, -, rfl⟩ := List.mem_map.mp hq
      exact t.isAbsolute_extended (Path.isAbsolute_directory hp) value
    rw [List.forall_mem_append, List.forall_mem_cons]
    exact ⟨ihbelow hbases, hp, ihafter hps⟩

/-- Module types that were declared have a directory. -/
theorem Postorder.directory_ne_empty {t : FileTree} {ps : List Path} {vs : List Visited}
    (h : Postorder t ps vs) (hps : ∀ p ∈ ps, p.isAbsolute = true) {entries : List OverrideEntry}
    {directory : Path} (hlast : lastDeclared Visited.moduleTypes? vs = some (entries, directory)) :
    directory ≠ .empty := by
  obtain ⟨v, hv, hdeclared⟩ := List.mem_filterMap.mp (List.mem_of_getLast? hlast)
  obtain ⟨_, -, heq⟩ := Option.map_eq_some_iff.mp hdeclared
  have hdirectory : v.path.directory = directory := congrArg Prod.snd heq
  have habsolute := Path.isAbsolute_directory (h.isAbsolute hps v hv)
  rintro rfl
  rw [hdirectory] at habsolute
  cases habsolute

namespace Tsconfig

/-- The module types of a config, with the directory that their keys are relative to. -/
def anchoredTypes (c : Tsconfig) : List OverrideEntry × Path :=
  (c.moduleTypes, c.moduleTypesBase)

theorem anchoredTypes_eq_mk_iff {c : Tsconfig} {entries : List OverrideEntry} {directory : Path} :
    c.anchoredTypes = (entries, directory) ↔
      c.moduleTypes = entries ∧ c.moduleTypesBase = directory :=
  Prod.ext_iff

/-- A config has its own module types if it declares any, be it an empty table. -/
theorem anchoredTypes_declare (inherited : Tsconfig) (v : Visited) :
    (inherited.declare v.path.directory v.declared).anchoredTypes =
      v.moduleTypes?.getD inherited.anchoredTypes := by
  unfold anchoredTypes declare Visited.moduleTypes?
  cases v.declared.moduleTypes <;> rfl

/-- A later config gives its module types if it has any. -/
theorem anchoredTypes_inherit (earlier later : Tsconfig) :
    (earlier.inherit later).anchoredTypes =
      if later.moduleTypes = [] then earlier.anchoredTypes else later.anchoredTypes := by
  unfold anchoredTypes inherit
  by_cases h : later.moduleTypes = []
  · simp [h]
  · simp [h]

/-- Visits that declare no module types leave those that were there, and visits the last of which
declares entries leave these. -/
theorem moduleTypesLaws :
    VisitLaws fun earlier vs c =>
      (lastDeclared Visited.moduleTypes? vs = none → c.anchoredTypes = earlier.anchoredTypes) ∧
        ∀ types, lastDeclared Visited.moduleTypes? vs = some types → types.1 ≠ [] →
          c.anchoredTypes = types where
  nil c := ⟨fun _ => rfl, fun types h => absurd h.symm (Option.some_ne_none _)⟩
  append := by
    intro a b c vs ws ⟨hvsNone, hvsSome⟩ ⟨hwsNone, hwsSome⟩
    rw [lastDeclared_append]
    cases hws : lastDeclared Visited.moduleTypes? ws with
    | none =>
      rw [Option.none_or, hwsNone hws]
      exact ⟨hvsNone, hvsSome⟩
    | some types =>
      rw [Option.some_or]
      refine ⟨fun h => absurd h (Option.some_ne_none _), fun types' h hne => ?_⟩
      cases h
      exact hwsSome types hws hne
  inherit := by
    intro earlier later vs ⟨hnone, hsome⟩
    rw [anchoredTypes_inherit]
    refine ⟨fun h => ?_, fun types h hne => ?_⟩
    · have htypes : later.moduleTypes = [] := congrArg Prod.fst (hnone h)
      rw [if_pos htypes]
    · have htypes : later.anchoredTypes = types := hsome types h hne
      have hne' : later.moduleTypes ≠ [] := by
        rw [← htypes] at hne
        exact hne
      rw [if_neg hne', htypes]
  declare := by
    intro inherited v
    rw [anchoredTypes_declare, lastDeclared_singleton]
    exact ⟨fun h => by rw [h, Option.getD_none], fun types h _ => by rw [h, Option.getD_some]⟩

/-- Without module types there is no directory for them either. -/
def IsTidy (c : Tsconfig) : Prop :=
  c.moduleTypes = [] → c.moduleTypesBase = .empty

/-- A config that is layered over a tidy one leaves it tidy: an empty table is not taken over, nor
is its directory. -/
theorem IsTidy.inherit {earlier : Tsconfig} (h : earlier.IsTidy) (later : Tsconfig) :
    (earlier.inherit later).IsTidy := by
  have htypes := anchoredTypes_inherit earlier later
  intro hnil
  by_cases hlater : later.moduleTypes = []
  · rw [if_pos hlater] at htypes
    have hearlier : earlier.moduleTypes = [] := (congrArg Prod.fst htypes).symm.trans hnil
    exact (congrArg Prod.snd htypes).trans (h hearlier)
  · rw [if_neg hlater] at htypes
    exact absurd ((congrArg Prod.fst htypes).symm.trans hnil) hlater

theorem isTidy_of_layerAll {load : Path → Option (Except Fault Tsconfig)} {ps : List Path}
    {earlier c : Tsconfig} (h : layerAll load earlier ps = some (.ok c))
    (hearlier : earlier.IsTidy) : c.IsTidy := by
  induction ps generalizing earlier with
  | nil =>
    cases h
    exact hearlier
  | cons p ps ih =>
    obtain ⟨base, -, hrest⟩ := layerAll_cons_eq_ok_iff.mp h
    exact ih hrest (hearlier.inherit base)

/-- A tidy config has the declared module types if and only if there are entries among them, if it
has them whenever there are entries. -/
theorem IsTidy.anchoredTypes_eq_iff {c : Tsconfig} (h : c.IsTidy) {entries : List OverrideEntry}
    {directory : Path} (hdirectory : directory ≠ .empty)
    (hentries : entries ≠ [] → c.anchoredTypes = (entries, directory)) :
    c.anchoredTypes = (entries, directory) ↔ entries ≠ [] := by
  refine ⟨fun htypes hnil => hdirectory ?_, hentries⟩
  obtain ⟨htypes, hbase⟩ := anchoredTypes_eq_mk_iff.mp htypes
  rw [← hbase]
  exact h (htypes.trans hnil)

/-- **When the last declaration of module types counts.**  A loaded config is the last of those
visited.  If none of them declares module types, it has none.  Else it has the entries and the
directory of the last declaration if and only if there are entries in that, or the loaded config
itself declares module types. -/
theorem load_moduleTypes_eq_iff {t : FileTree} {p : Path} {c : Tsconfig}
    (h : load t p = some (.ok c)) :
    ∃ below v, (∀ ws, Postorder t [c.path] ws ↔ ws = below ++ [v]) ∧ v.path = c.path ∧
      (lastDeclared Visited.moduleTypes? (below ++ [v]) = none →
        c.moduleTypes = [] ∧ c.moduleTypesBase = .empty) ∧
      ∀ entries directory,
        lastDeclared Visited.moduleTypes? (below ++ [v]) = some (entries, directory) →
          (c.moduleTypes = entries ∧ c.moduleTypesBase = directory ↔
            entries ≠ [] ∨ v.declared.moduleTypes ≠ none) := by
  obtain ⟨path, c, hpath, hload, rfl⟩ := load_eq_ok_iff.mp h
  rw [loadChain_eq] at hload
  obtain ⟨d, inherited, hvisit, hbases, rfl⟩ := loadVisited_eq_ok_iff.mp hload
  obtain ⟨below, hbelow, hnone, hsome⟩ := moduleTypesLaws.exists_postorder_of_layerAll
    (fun _ _ hbase => moduleTypesLaws.exists_postorder_of_loadChain hbase) hbases
  have hpostorder : Postorder t [path] (below ++ [⟨path, d⟩]) :=
    .cons (visit_eq_ok_iff.mp hvisit).2 hbelow .nil
  have habsolute : ∀ q ∈ [path], q.isAbsolute = true := by
    intro q hq
    rw [List.mem_singleton.mp hq]
    exact Path.anchor_eq_root_iff.mp (FileTree.isTrimmed_of_resolve hpath).anchor_eq
  have htidy : inherited.IsTidy := isTidy_of_layerAll hbases fun _ => rfl
  have htypes := anchoredTypes_declare inherited ⟨path, d⟩
  refine ⟨below, ⟨path, d⟩, hpostorder.iff_eq, rfl, ?_, ?_⟩
  · intro hlast
    rw [lastDeclared_append, lastDeclared_singleton, Option.or_eq_none_iff] at hlast
    rw [hlast.1, Option.getD_none, hnone hlast.2] at htypes
    exact anchoredTypes_eq_mk_iff.mp htypes
  · intro entries directory hlast
    have hdirectory := hpostorder.directory_ne_empty habsolute hlast
    refine (anchoredTypes_eq_mk_iff (c := inherited.declare path.directory d)).symm.trans ?_
    rw [htypes]
    rw [lastDeclared_append, lastDeclared_singleton] at hlast
    cases hv : Visited.moduleTypes? ⟨path, d⟩ with
    | some types =>
      -- The loaded config has the last word.
      have hown : d.moduleTypes ≠ none := fun hnil => by simp [Visited.moduleTypes?, hnil] at hv
      rw [hv, Option.some_or] at hlast
      exact iff_of_true (Option.some_inj.mp hlast) (Or.inr hown)
    | none =>
      have hown : d.moduleTypes = none := Option.map_eq_none_iff.mp hv
      rw [hv, Option.none_or] at hlast
      rw [Option.getD_none, htidy.anchoredTypes_eq_iff hdirectory (hsome _ hlast)]
      simp [hown]

/-! ## An empty table -/

/-- A config with entries; one in `lib` that extends it and declares empty tables, and one that
extends first the one and then the other. -/
def emptyTables : FileTree where
  contents :=
    [(Text.encode "entries.json".toList, configFile
        [("compilerOptions", .object [("paths", .object [("a", .array [.string "b"])])]),
         ("tsmap", .object [("moduleTypes", .object [("*.js", .string "cjs")])])]),
     (Text.encode "lib".toList, .directory
        [(Text.encode "empty.json".toList, configFile
            [("extends", .string "../entries.json"),
             ("compilerOptions", .object [("paths", .object [])]),
             ("tsmap", .object [("moduleTypes", .object [])])])]),
     (Text.encode "app.json".toList, configFile
        [("extends", .array [.string "./entries.json", .string "./lib/empty.json"])])]

/-- The visit to `entries.json`. -/
def entriesVisit : Visited where
  path := .ofText "/entries.json"
  declared := ⟨[], { paths := some [("a", ["b"])] }, some [("*.js", .cjs)]⟩

/-- The visit to `empty.json`. -/
def emptyVisit : Visited where
  path := .ofText "/lib/empty.json"
  declared := ⟨["../entries.json"], { paths := some [] }, some []⟩

/-- The visit to `app.json`. -/
def appVisit : Visited where
  path := .ofText "/app.json"
  declared := ⟨["./entries.json", "./lib/empty.json"], {}, none⟩

theorem postorder_entriesVisit (ps : List Path) (vs : List Visited)
    (h : Postorder emptyTables ps vs) :
    Postorder emptyTables (entriesVisit.path :: ps) (entriesVisit :: vs) := by
  have hd : Declared.load emptyTables entriesVisit.path = .ok entriesVisit.declared := by
    decide +kernel
  exact .cons hd .nil h

theorem postorder_emptyVisit :
    Postorder emptyTables [emptyVisit.path] [entriesVisit, emptyVisit] := by
  have hd : Declared.load emptyTables emptyVisit.path = .ok emptyVisit.declared := by
    decide +kernel
  have hbases : emptyTables.basesOf emptyVisit.path emptyVisit.declared = [entriesVisit.path] := by
    decide +kernel
  have hbelow : Postorder emptyTables (emptyTables.basesOf emptyVisit.path emptyVisit.declared)
      [entriesVisit] := by
    rw [hbases]
    exact postorder_entriesVisit [] [] .nil
  exact .cons hd hbelow .nil

theorem postorder_appVisit :
    Postorder emptyTables [appVisit.path] [entriesVisit, entriesVisit, emptyVisit, appVisit] := by
  have hd : Declared.load emptyTables appVisit.path = .ok appVisit.declared := by decide +kernel
  have hbases : emptyTables.basesOf appVisit.path appVisit.declared =
      [entriesVisit.path, emptyVisit.path] := by decide +kernel
  have hbelow : Postorder emptyTables (emptyTables.basesOf appVisit.path appVisit.declared)
      [entriesVisit, entriesVisit, emptyVisit] := by
    rw [hbases]
    exact postorder_entriesVisit _ _ postorder_emptyVisit
  exact .cons hd hbelow .nil

/-- The empty table of `empty.json` counts where that is loaded itself. -/
theorem load_moduleTypes_eq_iff_emptyTables :
    load emptyTables emptyVisit.path =
        some (.ok ⟨emptyVisit.path, { paths := some [] }, [], .ofText "/lib"⟩) ∧
      ∃ below v, Postorder emptyTables [emptyVisit.path] (below ++ [v]) ∧
        lastDeclared Visited.moduleTypes? (below ++ [v]) = some ([], .ofText "/lib") ∧
        v.declared.moduleTypes ≠ none := by
  have hchain : (loadWithin emptyTables 2 [] emptyVisit.path).bind Except.toOption =
      some ⟨.empty, { paths := some [] }, [], .ofText "/lib"⟩ := by decide +kernel
  have hload : load emptyTables emptyVisit.path =
      some (.ok ⟨emptyVisit.path, { paths := some [] }, [], .ofText "/lib"⟩) :=
    load_of_loadWithin rfl hchain
  obtain ⟨below, v, hpostorder, -, -, hiff⟩ := load_moduleTypes_eq_iff hload
  have hvisits : [entriesVisit, emptyVisit] = below ++ [v] :=
    (hpostorder _).mp postorder_emptyVisit
  have hlast : lastDeclared Visited.moduleTypes? (below ++ [v]) = some ([], .ofText "/lib") := by
    rw [← hvisits]
    decide +kernel
  refine ⟨hload, below, v, (hpostorder _).mpr rfl, hlast, ?_⟩
  rcases (hiff [] _ hlast).mp ⟨rfl, rfl⟩ with hne | hown
  · exact absurd rfl hne
  · exact hown

/-- **An empty table that clears nothing.**  In `app.json` the last declaration of `paths` and of
module types is that of `empty.json`, and both are empty.  The loaded config has no `paths` entries,
but it has the module types that were declared before, with the directory of these. -/
theorem load_moduleTypes_not_cleared :
    ∃ c vs, load emptyTables appVisit.path = some (.ok c) ∧ Postorder emptyTables [c.path] vs ∧
      lastDeclared Visited.paths? vs = some [] ∧ c.mapping.paths = some [] ∧
      lastDeclared Visited.moduleTypes? vs = some ([], .ofText "/lib") ∧
      c.moduleTypes = [⟨"*.js", .cjs⟩] ∧ c.moduleTypesBase = .root := by
  have hchain : (loadWithin emptyTables 3 [] appVisit.path).bind Except.toOption =
      some ⟨.empty, { paths := some [] }, [⟨"*.js", .cjs⟩], .root⟩ := by decide +kernel
  have hload := load_of_loadWithin (p := appVisit.path) rfl hchain
  exact ⟨_, _, hload, postorder_appVisit, by decide +kernel, rfl, by decide +kernel, rfl, rfl⟩

end Tsconfig

end ModuleMap
