import ModuleMap.Proofs.Path.Composition
import ModuleMap.Proofs.Scope.Session

/-!
# A file is classified under any spelling

The path of a file is read three times when its format is resolved: overrides are matched with its
normal form, the extension is taken from its last name, and the walk for the manifest starts from
its absolute normal form.  A `..` that takes back names before the last one is seen by none of them,
be it the name of a `node_modules` directory that it takes back.

* `Path.fileName?_normalize`, `Overrides.lookup?_normalize`, `FileTree.resolve_normalize`: what the
  three read off the normal form.
* `ModuleFormat.resolve_congr`: what a format depends on.
* `ModuleFormat.resolve_of_normalize`: the formats of a file under its spellings.
-/

namespace ModuleMap

variable {t : FileTree} {p q : Path}

/-! ## The last name -/

namespace Path

theorem fileName?_eq_some_iff {name : Segment} :
    p.fileName? = some name ↔ name ≠ dotDot ∧ ∃ init, p.names = init ++ [name] := by
  unfold fileName?
  rw [Option.filter_eq_some_iff, decide_eq_true_eq, and_comm, List.getLast?_eq_some_iff]

/-- Normalizing keeps the name of a file. -/
theorem fileName?_normalize (hp : p.fileName?.isSome = true) :
    p.normalize.fileName? = p.fileName? := by
  obtain ⟨name, hname⟩ := Option.isSome_iff_exists.mp hp
  obtain ⟨hne, init, hnames⟩ := fileName?_eq_some_iff.mp hname
  have hdotDot : dotDot ∉ [name] := fun hmem => hne (List.mem_singleton.mp hmem).symm
  rw [hname, fileName?_eq_some_iff, names_normalize, hnames, settle_append init hdotDot]
  exact ⟨hne, _, rfl⟩

theorem bytes_ne_nil_of_fileName? (hp : p.fileName?.isSome = true) : p.bytes ≠ [] := by
  rintro hnil
  obtain rfl : p = empty := congrArg mk hnil
  cases hp

end Path

/-! ## Overrides and scopes -/

/-- Overrides do not tell a path from its normal form. -/
theorem Overrides.lookup?_normalize (o : Overrides) (p : Path) :
    o.lookup? p.normalize = o.lookup? p := by
  rw [lookup?, Path.normalize_normalize, ← lookup?]

/-- A path has the same absolute normal form as its normal form has. -/
theorem FileTree.resolve_normalize (t : FileTree) (hp : p.bytes ≠ []) :
    t.resolve p.normalize = t.resolve p := by
  rw [resolve, resolve, if_neg (Path.bytes_normalize_ne_nil p), if_neg hp,
    Path.isAbsolute_normalize_eq]
  split_ifs with habsolute
  · rw [Path.normalize_normalize]
  · have hrelative : p.isAbsolute = false := Bool.eq_false_iff.mpr habsolute
    cases hcwd : t.cwd? with
    | none => rfl
    | some cwd =>
      have hbase : cwd.isAbsolute = true := by
        unfold cwd? at hcwd
        split_ifs at hcwd
        cases hcwd
        rfl
      exact congrArg Except.ok (Path.normalize_join_normalize hbase hrelative hp)

/-- The walk for a manifest depends on the absolute normal form alone. -/
theorem ScopeCache.findScope_congr (h : t.resolve p = t.resolve q) (c : ScopeCache) :
    c.findScope t p = c.findScope t q := by
  rw [findScope, findScope, h]

namespace ModuleFormat

variable {o : Overrides}

/-- The format depends on what the three readings of the path give, and so does the cache that is
left. -/
theorem resolve_congr (hlookup : o.lookup? p = o.lookup? q) (hname : p.fileName? = q.fileName?)
    (hresolve : t.resolve p = t.resolve q) (c : ScopeCache) (packageScoped : Bool) :
    resolve t o c p packageScoped = resolve t o c q packageScoped := by
  have hext : ofExtension? p packageScoped = ofExtension? q packageScoped := by
    rw [ofExtension?, ofExtension?, Path.extension?, Path.extension?, hname]
  rw [resolve, resolve, hlookup, classify, classify, hext, ScopeCache.findScope_congr hresolve]

/-- A file has the same format under its normal form. -/
theorem resolve_normalize (hp : p.fileName?.isSome = true) (t : FileTree) (o : Overrides)
    (c : ScopeCache) (packageScoped : Bool) :
    resolve t o c p.normalize packageScoped = resolve t o c p packageScoped :=
  resolve_congr (o.lookup?_normalize p) (Path.fileName?_normalize hp)
    (t.resolve_normalize (Path.bytes_ne_nil_of_fileName? hp)) c packageScoped

/-- **A file is classified under any spelling.**  A path that ends with the name of a file has the
format of its normal form, or fails as this does, and leaves the same cache.  So have and do all
paths to a file that have one normal form. -/
theorem resolve_of_normalize (hp : p.fileName?.isSome = true) (t : FileTree) (o : Overrides)
    (c : ScopeCache) (packageScoped : Bool) :
    resolve t o c p packageScoped = resolve t o c p.normalize packageScoped ∧
      ∀ q : Path, q.fileName?.isSome = true → q.normalize = p.normalize →
        resolve t o c q packageScoped = resolve t o c p packageScoped := by
  refine ⟨(resolve_normalize hp t o c packageScoped).symm, fun q hq hnormalize => ?_⟩
  rw [← resolve_normalize hq, hnormalize, resolve_normalize hp]

/-- A path through a `node_modules` directory that is left again, in a package of modules. -/
theorem resolve_of_normalize_leaving :
    let t := ScopeSession.modulePackage
    let p := Path.ofText "lib//node_modules/./.././../a.js"
    let q := Path.ofText "./a.js"
    (p.fileName?.isSome = true ∧ q.fileName?.isSome = true ∧ q.normalize = p.normalize) ∧
      resolve t {} .empty p true = resolve t {} .empty p.normalize true ∧
      resolve t {} .empty q true = resolve t {} .empty p true ∧
      (resolve t {} .empty p true).1 = .ok nodeEsm := by
  intro t p q
  have hp : p.fileName?.isSome = true := by decide +kernel
  have hq : q.fileName?.isSome = true := by decide +kernel
  have hnormalize : q.normalize = p.normalize := by decide +kernel
  obtain ⟨hsame, hspellings⟩ := resolve_of_normalize hp t {} .empty true
  exact ⟨⟨hp, hq, hnormalize⟩, hsame, hspellings q hq hnormalize, by decide +kernel⟩

end ModuleFormat

end ModuleMap
