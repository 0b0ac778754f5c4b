import ModuleMap.Proofs.Tsconfig.Cycles

/-!
# Configs in packages

An `extends` value that is no path of its own names a package.  The nearest directory whose
`node_modules` holds the package decides which config that is, even if there is no config at the
path it leads to.  A package that is nowhere is given a place that is no file, so a config that
extends it is not loaded, and neither is one that leads to such a config.  Another chain may have no
end before the package is come to; then loading gives nothing at all.

* `FileTree.HoldsPackage`: what makes a directory decide, and the path it leads to.
* `FileTree.packageConfig?_eq_some_iff`: the two probes of a directory say no more than that.
* `FileTree.exists_load_candidate_eq_error`: the place of a package that is nowhere.
* `Tsconfig.exists_loadChain_of_reaches`, `Tsconfig.load_ne_ok_of_reaches`: all that a loaded config
  leads to is loaded.
* `FileTree.extended_eq_iff_holdsPackage`: the config for a package.
-/

namespace ModuleMap

open Relation

namespace FileTree

variable {t : FileTree} {a r : Path} {value : String}

/-- The packages of a directory hold the one that a value names, and this leads to a path. -/
inductive HoldsPackage (t : FileTree) (a : Path) (value : String) : Path → Prop
  /-- There is a directory of this name.  It stands for the config in it, which may be missing. -/
  | directory (hdirectory : t.isDirectory (candidate a value) = true) :
    HoldsPackage t a value ((candidate a value).join configName)
  /-- There is a file of this name. -/
  | file (hdirectory : t.isDirectory (candidate a value) = false)
      (hfile : t.isFile (candidate a value) = true) :
    HoldsPackage t a value (candidate a value)
  /-- There is a file whose name has `.json` added to this one, which has another extension. -/
  | json (hdirectory : t.isDirectory (candidate a value) = false)
      (hfile : t.isFile (candidate a value) = false)
      (hextension : (candidate a value).extension? ≠ some jsonExtension)
      (hjson : t.isFile ((candidate a value).addSuffix ".json") = true) :
    HoldsPackage t a value ((candidate a value).addSuffix ".json")

/-- The probes of a directory lead to a path if the packages of the directory do. -/
theorem packageConfig?_eq_some_iff :
    t.packageConfig? value a = some r ↔ t.HoldsPackage a value r := by
  rw [packageConfig?_eq]
  constructor
  · intro h
    cases hdirectory : t.isDirectory (candidate a value) with
    | true =>
      rw [if_pos hdirectory] at h
      cases h
      exact .directory hdirectory
    | false =>
      rw [if_neg (hdirectory ▸ Bool.false_ne_true)] at h
      obtain ⟨hr, h⟩ := Option.ite_none_right_eq_some.mp h
      cases h
      cases hfile : t.isFile (candidate a value) with
      | true =>
        rw [withJson, hfile, Bool.true_or, if_pos rfl]
        exact .file hdirectory hfile
      | false =>
        have hextension : (candidate a value).extension? ≠ some jsonExtension := by
          intro hextension
          rw [withJson, if_pos (by simp [hextension]), hfile] at hr
          cases hr
        have hjson : t.withJson (candidate a value) = (candidate a value).addSuffix ".json" := by
          rw [withJson, if_neg (by simp [hfile, hextension])]
        rw [hjson] at hr ⊢
        exact .json hdirectory hfile hextension hr
  · intro h
    cases h with
    | directory hdirectory => rw [if_pos hdirectory]
    | file hdirectory hfile => simp [hdirectory, withJson, hfile]
    | json hdirectory hfile hextension hjson =>
      simp [hdirectory, withJson, hfile, hextension, hjson]

theorem packageConfig?_eq_none_iff :
    t.packageConfig? value a = none ↔ ∀ r, ¬ t.HoldsPackage a value r := by
  rw [Option.eq_none_iff_forall_ne_some]
  exact forall_congr' fun r => not_congr packageConfig?_eq_some_iff

/-- What is no file is not read. -/
theorem exists_readLossy_eq_error (h : t.isFile a = false) : ∃ e, t.readLossy a = .error e := by
  rw [isFile] at h
  rw [readLossy, readBytes]
  split at h
  · cases h
  · next hnode =>
    rcases hread : t.nodeAt a with e | (bytes | entries)
    · exact ⟨e, rfl⟩
    · exact absurd hread (hnode bytes)
    · exact ⟨.isDirectory, rfl⟩

/-- A directory that does not hold a package has no config in the place of the package. -/
theorem exists_load_candidate_eq_error (h : ∀ r, ¬ t.HoldsPackage a value r) :
    ∃ e, Declared.load t (candidate a value) = .error (.configRead (candidate a value) e) := by
  have hdirectory : t.isDirectory (candidate a value) = false :=
    Bool.eq_false_iff.mpr fun hdirectory => h _ (.directory hdirectory)
  have hfile : t.isFile (candidate a value) = false :=
    Bool.eq_false_iff.mpr fun hfile => h _ (.file hdirectory hfile)
  obtain ⟨e, he⟩ := exists_readLossy_eq_error hfile
  exact ⟨e, by rw [Declared.load, he]⟩

/-- A value that is not absolute and starts neither with `./` nor with `../` is no path of its
own. -/
theorem isPathValue_eq_false (habsolute : (Path.ofText value).isAbsolute = false)
    (hdot : ¬ "./".toList <+: value.toList) (hdotDot : ¬ "../".toList <+: value.toList) :
    isPathValue value = false := by
  rw [isPathValue, Bool.or_eq_false_iff, Bool.or_eq_false_iff]
  refine ⟨⟨Bool.eq_false_iff.mpr fun h => hdot (List.isPrefixOf_iff_prefix.mp h), ?_⟩, habsolute⟩
  exact Bool.eq_false_iff.mpr fun h => hdotDot (List.isPrefixOf_iff_prefix.mp h)

end FileTree

namespace Tsconfig

variable {t : FileTree} {root f : Path}

/-- All that a loaded config leads to is loaded. -/
theorem exists_loadChain_of_reaches {c : Tsconfig} (hroot : loadChain t [] root = some (.ok c))
    (hf : ReflTransGen (Extends t) root f) : ∃ chain c, loadChain t chain f = some (.ok c) := by
  induction hf with
  | refl => exact ⟨[], c, hroot⟩
  | @tail f g _ hfg ih =>
    obtain ⟨chain, c, hf⟩ := ih
    obtain ⟨d, hd, hg⟩ := hfg
    rw [loadChain_eq] at hf
    obtain ⟨d', inherited, hvisit, hbases, -⟩ := loadVisited_eq_ok_iff.mp hf
    cases hd.symm.trans (visit_eq_ok_iff.mp hvisit).2
    exact ⟨f.key :: chain, exists_of_layerAll hbases g hg⟩

/-- A config is not loaded if it leads to one that cannot be read. -/
theorem load_ne_ok_of_reaches {p : Path} {e : Fault} (hroot : t.resolve p = .ok root)
    (hf : ReflTransGen (Extends t) root f) (herror : Declared.load t f = .error e) (c : Tsconfig) :
    load t p ≠ some (.ok c) := by
  intro hload
  obtain ⟨root', c', hroot', hchain, -⟩ := load_eq_ok_iff.mp hload
  cases hroot.symm.trans hroot'
  obtain ⟨chain, c, hc⟩ := exists_loadChain_of_reaches hchain hf
  rw [loadChain_eq] at hc
  obtain ⟨d, -, hvisit, -, -⟩ := loadVisited_eq_ok_iff.mp hc
  cases herror.symm.trans (visit_eq_ok_iff.mp hvisit).2

end Tsconfig

namespace FileTree

/-- **The nearest directory that holds a package decides.**  The ancestors of an absolute directory
have as names all beginnings of its names, the longest first.  The config that a package name leads
to from there is the one for the first ancestor whose packages hold the package.  If there is no
such ancestor, it is a place in the packages of the directory itself that cannot be read, and no
config is ever loaded that leads to one in this directory that extends the package: where paths are
bounded in length, and where no more than finitely many configs can be reached, loading ends, and it
fails. -/
theorem extended_eq_iff_holdsPackage (t : FileTree) {directory : Path}
    (hdirectory : directory.isAbsolute = true) {value : String}
    (habsolute : (Path.ofText value).isAbsolute = false) (hdot : ¬ "./".toList <+: value.toList)
    (hdotDot : ¬ "../".toList <+: value.toList) :
    directory.ancestors.map Path.names = directory.names.inits.reverse ∧
      (∀ q, t.extended directory value = q ↔
        (∃ nearer a farther, directory.ancestors = nearer ++ a :: farther ∧
            (∀ b ∈ nearer, ∀ r, ¬ t.HoldsPackage b value r) ∧ t.HoldsPackage a value q) ∨
          (∀ a ∈ directory.ancestors, ∀ r, ¬ t.HoldsPackage a value r) ∧
            q = candidate directory value) ∧
      ((∀ a ∈ directory.ancestors, ∀ r, ¬ t.HoldsPackage a value r) →
        (∃ e, Declared.load t (candidate directory value) =
            .error (.configRead (candidate directory value) e)) ∧
          ∀ p root f d, t.resolve p = .ok root → ReflTransGen (Extends t) root f →
            f.directory = directory → Declared.load t f = .ok d → value ∈ d.bases →
            (∀ c, Tsconfig.load t p ≠ some (.ok c)) ∧
              ((∃ limit, t.pathLimit = some limit) ∨
                  {g | ReflTransGen (Extends t) root g}.Finite →
                ∃ e, Tsconfig.load t p = some (.error e))) := by
  have hvalue : isPathValue value = false := isPathValue_eq_false habsolute hdot hdotDot
  have hextended := t.extended_of_isPathValue_eq_false directory hvalue
  have hnone : directory.ancestors.findSome? (t.packageConfig? value) = none ↔
      ∀ a ∈ directory.ancestors, ∀ r, ¬ t.HoldsPackage a value r := by
    simp only [List.findSome?_eq_none_iff, packageConfig?_eq_none_iff]
  have hsome : ∀ q, directory.ancestors.findSome? (t.packageConfig? value) = some q ↔
      ∃ nearer a farther, directory.ancestors = nearer ++ a :: farther ∧
        (∀ b ∈ nearer, ∀ r, ¬ t.HoldsPackage b value r) ∧ t.HoldsPackage a value q := by
    intro q
    simp only [List.findSome?_eq_some_iff, packageConfig?_eq_none_iff, packageConfig?_eq_some_iff]
    constructor
    · rintro ⟨nearer, a, farther, hsplit, ha, hnearer⟩
      exact ⟨nearer, a, farther, hsplit, hnearer, ha⟩
    · rintro ⟨nearer, a, farther, hsplit, hnearer, ha⟩
      exact ⟨nearer, a, farther, hsplit, ha, hnearer⟩
  refine ⟨Path.names_ancestors hdirectory, fun q => ?_, fun hnowhere => ?_⟩
  · rw [← hsome, ← hnone, hextended]
    cases directory.ancestors.findSome? (t.packageConfig? value) with
    | none => simp [eq_comm]
    | some found => simp
  · have hplace : t.extended directory value = candidate directory value := by
      rw [hextended, hnone.mpr hnowhere, Option.getD_none]
    obtain ⟨e, he⟩ := exists_load_candidate_eq_error (hnowhere directory List.mem_cons_self)
    refine ⟨⟨e, he⟩, fun p root f d hroot hf hfd hd hmem => ?_⟩
    have hextends : Extends t f (candidate directory value) :=
      ⟨d, hd, List.mem_map.mpr ⟨value, hmem, by rw [hfd, hplace]⟩⟩
    have hnever := Tsconfig.load_ne_ok_of_reaches hroot (hf.tail hextends) he
    refine ⟨hnever, fun hends => ?_⟩
    obtain ⟨error | c, hr⟩ := Tsconfig.exists_load hroot hends
    · exact ⟨error, hr⟩
    · exact absurd hr (hnever c)

/-- Packages on two levels, on a disk where paths have no more than 4096 bytes.  The inner packages
are an empty directory, and a config next to them extends a package that is nowhere. -/
def nestedPackages : FileTree where
  contents :=
    [(Text.encode "node_modules".toList, .directory
        [(Text.encode "base.json".toList, configFile []),
         (Text.encode "lib.v1.json".toList, configFile [])]),
     (Text.encode "app".toList, .directory
        [(Text.encode "node_modules".toList, .directory
            [(Text.encode "base".toList, .directory [])]),
         (Text.encode "app.json".toList, configFile [("extends", .string "none")])])]
  pathLimit := some 4096

/-- The empty directory decides for `base`, although the file outside would be a config.  For
`lib.v1` a name is made with `.json` added, and loading the config that extends `none` fails. -/
theorem extended_eq_iff_holdsPackage_nestedPackages :
    nestedPackages.extended (.ofText "/app") "base" =
        .ofText "/app/node_modules/base/tsconfig.json" ∧
      nestedPackages.extended (.ofText "/app") "lib.v1" = .ofText "/node_modules/lib.v1.json" ∧
      ∃ e, Tsconfig.load nestedPackages (.ofText "/app/app.json") = some (.error e) := by
  have hancestors : (Path.ofText "/app").ancestors = [.ofText "/app", .ofText "/"] := by decide
  have habsolute : (Path.ofText "/app").isAbsolute = true := by decide
  have hrelative : ∀ value ∈ ["base", "lib.v1", "none"],
      (Path.ofText value).isAbsolute = false ∧ ¬ "./".toList <+: value.toList ∧
        ¬ "../".toList <+: value.toList := by decide
  simp only [List.forall_mem_cons] at hrelative
  obtain ⟨hbase, hlib, hnone, -⟩ := hrelative
  obtain ⟨-, hbase, -⟩ :=
    extended_eq_iff_holdsPackage nestedPackages habsolute hbase.1 hbase.2.1 hbase.2.2
  obtain ⟨-, hlib, -⟩ :=
    extended_eq_iff_holdsPackage nestedPackages habsolute hlib.1 hlib.2.1 hlib.2.2
  obtain ⟨-, -, hnone⟩ :=
    extended_eq_iff_holdsPackage nestedPackages habsolute hnone.1 hnone.2.1 hnone.2.2
  refine ⟨?_, ?_, ?_⟩
  · exact (hbase _).mpr <| .inl
      ⟨[], .ofText "/app", [.ofText "/"], hancestors, by simp, .directory (by decide +kernel)⟩
  · refine (hlib _).mpr <| .inl ⟨[.ofText "/app"], .ofText "/", [], hancestors, ?_,
      .json (by decide +kernel) (by decide +kernel) (by decide +kernel) (by decide +kernel)⟩
    intro b hb
    rw [List.mem_singleton.mp hb, ← packageConfig?_eq_none_iff]
    decide +kernel
  · have hnowhere : ∀ a ∈ (Path.ofText "/app").ancestors,
        nestedPackages.packageConfig? "none" a = none := by decide +kernel
    have hload : Declared.load nestedPackages (.ofText "/app/app.json") =
        .ok { bases := ["none"] } := by decide +kernel
    have hroot : nestedPackages.resolve (.ofText "/app/app.json") =
        .ok (.ofText "/app/app.json") := by decide +kernel
    obtain ⟨-, hfails⟩ := (hnone fun a ha => packageConfig?_eq_none_iff.mp (hnowhere a ha)).2
      _ _ _ _ hroot .refl (by decide) hload (by decide)
    exact hfails (.inl ⟨4096, rfl⟩)

end FileTree

end ModuleMap
