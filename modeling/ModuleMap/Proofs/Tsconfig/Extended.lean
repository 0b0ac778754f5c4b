import ModuleMap.Proofs.Path.Plain
import ModuleMap.Proofs.Tsconfig.Loading

/-!
# Where extended configs are

An `extends` value leads either to a path in normal form or to one that is joined from an ancestor
of the directory, `node_modules` and the value.  So what the lexical operations keep, the paths of
extended configs keep.

* `FileTree.extended_of_isPathValue_eq_false`: the lookup of a package, as a search through the
  directory and the ones above it.
* `FileTree.extended_cases`: the paths that an `extends` value can lead to.
* `FileTree.isAbsolute_extended`, `FileTree.isPlain_extended`: configs extended from absolute paths,
  and from paths without `..`.
-/

namespace ModuleMap.FileTree

/-- The place in the packages of a directory that a value stands for. -/
def candidate (directory : Path) (value : String) : Path :=
  (directory.join packagesName).join (.ofText value)

theorem packageConfig?_eq (t : FileTree) (value : String) (a : Path) :
    t.packageConfig? value a =
      if t.isDirectory (candidate a value) then some ((candidate a value).join configName)
      else if t.isFile (t.withJson (candidate a value)) then some (t.withJson (candidate a value))
      else none := rfl

/-- A value that is no path of its own is looked for in the directory and the ones above it. -/
theorem extended_of_isPathValue_eq_false (t : FileTree) (directory : Path) {value : String}
    (h : isPathValue value = false) :
    t.extended directory value =
      (directory.ancestors.findSome? (t.packageConfig? value)).getD
        (candidate directory value) := by
  rw [extended, h, if_neg Bool.false_ne_true, Path.nearest?_eq]
  rfl

theorem withJson_eq_or (t : FileTree) (p : Path) :
    t.withJson p = p ∨ t.withJson p = p.addSuffix ".json" := by
  unfold withJson
  split
  · exact Or.inl rfl
  · exact Or.inr rfl

/-- A value that is absolute is a path of its own. -/
theorem isAbsolute_ofText_of_isPathValue {value : String} (h : isPathValue value = false) :
    (Path.ofText value).isAbsolute = false := by
  unfold isPathValue at h
  rw [Bool.or_eq_false_iff] at h
  exact h.2

/-- What an `extends` value leads to: a path in normal form, or a place in the packages of the
directory or of one above it, or a config in that place. -/
theorem extended_cases (t : FileTree) (directory : Path) (value : String) :
    (isPathValue value = true ∧
        t.extended directory value = t.withJson (directory.join (.ofText value)).normalize) ∨
      (isPathValue value = false ∧ ∃ a ∈ directory.ancestors,
        t.extended directory value = candidate a value ∨
          t.extended directory value = (candidate a value).join configName ∨
          t.extended directory value = t.withJson (candidate a value)) := by
  cases hvalue : isPathValue value with
  | true => exact Or.inl ⟨rfl, by rw [extended, hvalue, if_pos rfl]⟩
  | false =>
    refine Or.inr ⟨rfl, ?_⟩
    rw [extended_of_isPathValue_eq_false t directory hvalue]
    cases hfound : directory.ancestors.findSome? (t.packageConfig? value) with
    | none => exact ⟨directory, List.mem_cons_self, Or.inl rfl⟩
    | some found =>
      obtain ⟨a, ha, hconfig⟩ := List.exists_of_findSome?_eq_some hfound
      refine ⟨a, ha, Or.inr ?_⟩
      unfold packageConfig? at hconfig
      simp only at hconfig
      split at hconfig
      · exact Or.inl (Option.some_inj.mp hconfig).symm
      · split at hconfig
        · exact Or.inr (Option.some_inj.mp hconfig).symm
        · cases hconfig

/-- What a config in an absolute directory extends has an absolute path. -/
theorem isAbsolute_extended (t : FileTree) {directory : Path}
    (hdirectory : directory.isAbsolute = true) (value : String) :
    (t.extended directory value).isAbsolute = true := by
  have hjson : ∀ p : Path, p.isAbsolute = true → (t.withJson p).isAbsolute = true := by
    intro p hp
    rcases t.withJson_eq_or p with h | h
    · rw [h]
      exact hp
    · rw [h]
      exact Path.isAbsolute_addSuffix hp ".json"
  rcases t.extended_cases directory value with ⟨-, h⟩ | ⟨-, a, ha, h⟩
  · rw [h]
    exact hjson _ (Path.isAbsolute_normalize (Path.isAbsolute_join hdirectory _))
  · have habsolute : a.isAbsolute = true :=
      Path.forall_mem_ancestors (fun p q hq hp => Path.isAbsolute_of_parent? hp hq) hdirectory a ha
    have hcandidate : (candidate a value).isAbsolute = true :=
      Path.isAbsolute_join (Path.isAbsolute_join habsolute _) _
    rcases h with h | h | h
    · rw [h]
      exact hcandidate
    · rw [h]
      exact Path.isAbsolute_join hcandidate _
    · rw [h]
      exact hjson _ hcandidate

/-- What a config extends has no `..` in its path if the directory of the config has none, and the
value has none unless it is a path of its own. -/
theorem isPlain_extended (t : FileTree) {directory : Path} (hdirectory : directory.IsPlain)
    {value : String}
    (hvalue : isPathValue value = false → Path.dotDot ∉ (Path.ofText value).segments) :
    (t.extended directory value).IsPlain := by
  have hjson : ∀ p : Path, p.IsPlain → (t.withJson p).IsPlain := by
    intro p hp
    rcases t.withJson_eq_or p with h | h
    · rw [h]
      exact hp
    · rw [h]
      exact hp.addSuffix (by decide) (by decide)
  rcases t.extended_cases directory value with ⟨-, h⟩ | ⟨hpath, a, ha, h⟩
  · rw [h]
    exact hjson _ (Path.isPlain_normalize (Path.isAbsolute_join hdirectory.isAbsolute _))
  · have hplain : a.IsPlain :=
      Path.forall_mem_ancestors (fun p q hq hp => Path.IsPlain.of_parent? hp hq) hdirectory a ha
    have hnames : Path.dotDot ∉ (Path.ofText value).names := by
      rw [Path.names_eq_filter]
      exact fun hmem => hvalue hpath ((List.mem_filter.mp hmem).1)
    have hcandidate : (candidate a value).IsPlain :=
      (hplain.join (by decide) (by decide)).join (isAbsolute_ofText_of_isPathValue hpath) hnames
    rcases h with h | h | h
    · rw [h]
      exact hcandidate
    · rw [h]
      exact hcandidate.join (by decide) (by decide)
    · rw [h]
      exact hjson _ hcandidate

end ModuleMap.FileTree
