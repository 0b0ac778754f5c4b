import ModuleMap.Command.Classify
import ModuleMap.Proofs.FirstFailure
import ModuleMap.Proofs.Scope.Coherence

/-!
# Files classified together and by themselves

The files of one run share a cache, so each is classified in a cache that the ones before it have
left.  That cache is coherent, and a coherent cache changes no format.  So a run prints what the
runs on the single files print, one after the other, and ends at the first file that cannot be
classified.

* `classifyOne`, `classifyAll_eq_mapM`: one file with a cache of its own, and files that share one.
* `ClassifyResult.printed`, `Settings.classify_eq_printed`: the command, step by step.
* `Settings.classifyAlone`, `Settings.classify_eq_mapM`: the command for one file, and for several
  in terms of that.
* `Settings.classify_eq_join_alone`: what is printed for several files, and for which of them the
  command fails.
-/

namespace ModuleMap

/-! ## One cache or several -/

/-- What is found for a path in a cache that nothing is recorded in. -/
def classifyOne (t : FileTree) (o : Overrides) (packageScoped : Bool) (p : Path) :
    Except Report ClassifyResult :=
  match (ModuleFormat.resolve t o .empty p packageScoped).1 with
  | .error f => .error (.ofFault ["Failed to classify " ++ p.display] f)
  | .ok format => .ok ⟨p, format, o.lookup? p⟩

/-- Paths that share a cache are classified as each is by itself. -/
theorem classifyAll_eq_mapM {t : FileTree} {c : ScopeCache} (hc : c.Coherent t) (o : Overrides)
    (packageScoped : Bool) (ps : List Path) :
    classifyAll t o packageScoped c ps = ps.mapM (classifyOne t o packageScoped) := by
  induction ps generalizing c with
  | nil => rfl
  | cons p ps ih =>
    have hfirst := hc.resolve_fst o p packageScoped
    have hkeeps := (ScopeCache.keptByReading_coherent t).resolve hc o p packageScoped
    rw [classifyAll, List.mapM_cons, classifyOne, ← hfirst]
    generalize ModuleFormat.resolve t o c p packageScoped = answer at hkeeps
    obtain ⟨f | format, c'⟩ := answer
    · rfl
    · show (classifyAll t o packageScoped c' ps >>= _) = (ps.mapM _ >>= _)
      rw [ih hkeeps]

/-! ## The command -/

/-- Results for files, as text or as JSON. -/
def ClassifyResult.printed (packageScoped json : Bool) (results : List ClassifyResult) : Printed :=
  if json then
    document do
      let results ← results.mapM ClassifyResult.toValue
      return [("package_scope", .bool packageScoped), ("results", .array results)]
  else
    return String.join (results.map ClassifyResult.line)

namespace Settings

/-- What the command prints for one file by itself. -/
def classifyAlone (s : Settings) (t : FileTree) (packageScoped : Bool) (file : Path) :
    Option Printed :=
  s.classify t [file] packageScoped false

/-- The overrides of a run, if loading its config has an answer. -/
def loadOverrides (s : Settings) (t : FileTree) : Option (Except Report Overrides) :=
  (s.loadConfig t).map (· >>= overridesOf)

/-- The command loads the overrides, then classifies the files, and then prints the results. -/
theorem classify_eq_printed (s : Settings) (t : FileTree) (files : List Path)
    (packageScoped json : Bool) :
    s.classify t files packageScoped json =
      (s.loadOverrides t).map (· >>= fun o =>
        (files.map (s.absoluteInput t)).mapM (classifyOne t o packageScoped) >>=
          ClassifyResult.printed packageScoped json) := by
  unfold classify loadOverrides
  simp only [classifyAll_eq_mapM (ScopeCache.coherent_empty t), Option.map_map]
  congr 1
  funext config
  show (config >>= _) = (config >>= overridesOf) >>= _
  cases config with
  | error e => rfl
  | ok config =>
    show (overridesOf config >>= _) = (overridesOf config >>= _)
    cases overridesOf config <;> rfl

/-- As text it prints a line for each. -/
theorem classify_eq_map (s : Settings) (t : FileTree) (files : List Path) (packageScoped : Bool) :
    s.classify t files packageScoped false =
      (s.loadOverrides t).map (· >>= fun o =>
        ((files.map (s.absoluteInput t)).mapM (classifyOne t o packageScoped)).map fun results =>
          String.join (results.map ClassifyResult.line)) := by
  rw [classify_eq_printed]
  rfl

/-- The lines of files that are classified one after the other are those of each by itself. -/
theorem mapM_classifyOne_lines (s : Settings) (t : FileTree) (o : Overrides) (packageScoped : Bool)
    (files : List Path) :
    ((files.map (s.absoluteInput t)).mapM (classifyOne t o packageScoped)).map
        (·.map ClassifyResult.line) =
      files.mapM fun file =>
        (classifyOne t o packageScoped (s.absoluteInput t file)).map ClassifyResult.line := by
  induction files with
  | nil => rfl
  | cons file files ih =>
    rw [List.map_cons, List.mapM_cons, List.mapM_cons, ← ih]
    cases classifyOne t o packageScoped (s.absoluteInput t file) with
    | error e => rfl
    | ok r =>
      cases (files.map (s.absoluteInput t)).mapM (classifyOne t o packageScoped) <;> rfl

/-- For one file by itself it prints the line for that. -/
theorem classifyAlone_eq_map (s : Settings) (t : FileTree) (packageScoped : Bool) (file : Path) :
    s.classifyAlone t packageScoped file =
      (s.loadOverrides t).map (· >>= fun o =>
        (classifyOne t o packageScoped (s.absoluteInput t file)).map ClassifyResult.line) := by
  rw [classifyAlone, classify_eq_map]
  congr 1
  funext overrides
  obtain e | o := overrides
  · rfl
  show Except.map _ ([s.absoluteInput t file].mapM (classifyOne t o packageScoped)) = Except.map _ _
  rw [List.mapM_cons, List.mapM_nil]
  cases classifyOne t o packageScoped (s.absoluteInput t file) with
  | error e => rfl
  | ok r => simp [bind, Except.bind, pure, Except.pure, Except.map]

/-- The command has no answer for any files, or else it prints for several files what it prints for
each. -/
theorem classify_eq_mapM (s : Settings) (t : FileTree) (packageScoped : Bool) :
    (∀ file files, s.classifyAlone t packageScoped file = none ∧
      s.classify t files packageScoped false = none) ∨
    ∃ printed : Path → Printed,
      (∀ file, s.classifyAlone t packageScoped file = some (printed file)) ∧
      ∀ files, files ≠ [] →
        s.classify t files packageScoped false = some ((files.mapM printed).map String.join) := by
  simp only [classifyAlone_eq_map, classify_eq_map]
  cases s.loadOverrides t with
  | none => exact Or.inl fun _ _ => ⟨rfl, rfl⟩
  | some overrides =>
    refine Or.inr ⟨_, fun _ => rfl, fun files hne => congrArg some ?_⟩
    cases overrides with
    | error e =>
      obtain ⟨file, rest, rfl⟩ := List.exists_cons_of_ne_nil hne
      rfl
    | ok o =>
      show Except.map _ _ = Except.map String.join (files.mapM fun file =>
        (classifyOne t o packageScoped (s.absoluteInput t file)).map ClassifyResult.line)
      rw [← mapM_classifyOne_lines]
      cases (files.map (s.absoluteInput t)).mapM (classifyOne t o packageScoped) <;> rfl

/-- **Several files are classified as each is by itself.**  If the command succeeds for each of the
files, then for all of them together it prints what it prints for each, in order; so if the files
come in another order, the printed parts do.  If it fails for one of them, it fails for all of them
together, with the report for the first for which it fails; and if it has no answer for one of them,
it has none for all of them together. -/
theorem classify_eq_join_alone (s : Settings) (t : FileTree) (packageScoped : Bool)
    {files : List Path} (hne : files ≠ []) :
    ((∀ file ∈ files, ∃ out, s.classifyAlone t packageScoped file = some (.ok out)) →
      ∃ outs,
        List.Forall₂ (fun file out => s.classifyAlone t packageScoped file = some (.ok out))
          files outs ∧
        s.classify t files packageScoped false = some (.ok (String.join outs)) ∧
        ∀ files', files.Perm files' → ∃ outs', outs.Perm outs' ∧
          List.Forall₂ (fun file out => s.classifyAlone t packageScoped file = some (.ok out))
            files' outs' ∧
          s.classify t files' packageScoped false = some (.ok (String.join outs'))) ∧
    (∀ earlier file later r, files = earlier ++ file :: later →
      (∀ g ∈ earlier, ∃ out, s.classifyAlone t packageScoped g = some (.ok out)) →
      s.classifyAlone t packageScoped file = some (.error r) →
      s.classify t files packageScoped false = some (.error r)) ∧
    ((∃ file ∈ files, s.classifyAlone t packageScoped file = none) →
      s.classify t files packageScoped false = none) := by
  rcases s.classify_eq_mapM t packageScoped with hnone | ⟨printed, halone, hall⟩
  · obtain ⟨file₀, rest, rfl⟩ := List.exists_cons_of_ne_nil hne
    have halone : ∀ file, s.classifyAlone t packageScoped file = none :=
      fun file => (hnone file []).1
    refine ⟨fun hok => ?_, fun _ file _ _ _ _ hfile => ?_, fun _ => (hnone file₀ _).2⟩
    · obtain ⟨out, hout⟩ := hok file₀ (List.mem_cons_self ..)
      exact nomatch (halone file₀).symm.trans hout
    · exact nomatch (halone file).symm.trans hfile
  refine ⟨fun hok => ?_, fun earlier file later r hsplit hearlier hfile => ?_,
    fun ⟨file, _, hfile⟩ => nomatch (halone file).symm.trans hfile⟩
  · simp only [halone, Option.some.injEq] at hok ⊢
    choose! part hpart using hok
    have hparts : ∀ l : List Path, l ⊆ files →
        List.Forall₂ (fun file out => printed file = .ok out) l (l.map part) := by
      intro l hl
      rw [List.forall₂_map_right_iff, List.forall₂_same]
      exact fun file hfile => hpart file (hl hfile)
    have hprinted : ∀ l : List Path, l ⊆ files → l ≠ [] →
        s.classify t l packageScoped false = some (.ok (String.join (l.map part))) := by
      intro l hl hlne
      rw [hall l hlne, mapM_eq_ok_iff.mpr (hparts l hl)]
      rfl
    refine ⟨files.map part, hparts files (List.Subset.refl _),
      hprinted files (List.Subset.refl _) hne, fun files' hperm => ?_⟩
    have hsub : files' ⊆ files := hperm.symm.subset
    have hne' : files' ≠ [] := fun hnil => hne (List.perm_nil.mp (hnil ▸ hperm))
    exact ⟨files'.map part, hperm.map part, hparts files' hsub, hprinted files' hsub hne'⟩
  · simp only [halone, Option.some.injEq] at hearlier hfile
    rw [hall files hne, mapM_eq_error_iff.mpr ⟨earlier, file, later, hsplit, hearlier, hfile⟩]
    rfl

/-- A directory with the manifest of a module, and one whose manifest is cut off. -/
def twoPackages : FileTree where
  contents :=
    [(Text.encode "app".toList, .directory
        [(Text.encode "package.json".toList,
          .file (Text.encode "\x7b\"type\": \"module\"\x7d".toList))]),
     (Text.encode "lib".toList, .directory
        [(Text.encode "package.json".toList, .file (Text.encode "\x7b".toList))])]

/-- The settings of a run in the root directory. -/
def rootSettings : Settings where
  cwd := .root

/-- The files of `app` find one manifest, the second of them in the cache; the file of `lib` fails,
and so does a run that comes to it. -/
theorem classify_eq_join_alone_twoPackages :
    rootSettings.classifyAlone twoPackages true (.ofText "app/a.js") =
        some (.ok "/app/a.js: node-flavored-esm\n") ∧
      rootSettings.classifyAlone twoPackages true (.ofText "app/b.js") =
        some (.ok "/app/b.js: node-flavored-esm\n") ∧
      rootSettings.classify twoPackages [.ofText "app/a.js", .ofText "app/b.js"] true false =
        some (.ok "/app/a.js: node-flavored-esm\n/app/b.js: node-flavored-esm\n") ∧
      ∃ r, rootSettings.classifyAlone twoPackages true (.ofText "lib/c.js") = some (.error r) ∧
        rootSettings.classify twoPackages
          [.ofText "app/a.js", .ofText "lib/c.js", .ofText "app/b.js"] true false =
            some (.error r) := by
  have ha : rootSettings.classifyAlone twoPackages true (.ofText "app/a.js") =
      some (.ok "/app/a.js: node-flavored-esm\n") := by decide +kernel
  have hb : rootSettings.classifyAlone twoPackages true (.ofText "app/b.js") =
      some (.ok "/app/b.js: node-flavored-esm\n") := by decide +kernel
  have hc : rootSettings.classifyAlone twoPackages true (.ofText "lib/c.js") =
      some (.error (.ofFault ["Failed to classify /lib/c.js"]
        (.manifestParse (.ofText "/lib/package.json") ⟨.incomplete, 1⟩))) := by decide +kernel
  have happ : [Path.ofText "app/a.js", .ofText "app/b.js"] ≠ [] := List.cons_ne_nil _ _
  have hboth : [Path.ofText "app/a.js", .ofText "lib/c.js", .ofText "app/b.js"] ≠ [] :=
    List.cons_ne_nil _ _
  refine ⟨ha, hb, ?_, _, hc, ?_⟩
  · obtain ⟨hall, -⟩ := classify_eq_join_alone rootSettings twoPackages true happ
    obtain ⟨outs, houts, hprinted, -⟩ := hall (by simp [ha, hb])
    cases houts with
    | cons hx houts =>
      cases houts with
      | cons hy houts =>
        cases houts
        cases ha.symm.trans hx
        cases hb.symm.trans hy
        rw [hprinted]
        decide +kernel
  · obtain ⟨-, hfirst, -⟩ := classify_eq_join_alone rootSettings twoPackages true hboth
    exact hfirst [.ofText "app/a.js"] _ [.ofText "app/b.js"] _ rfl (by simp [ha]) hc

end Settings

end ModuleMap
