import ModuleMap.Proofs.Command.Classification
import ModuleMap.Proofs.Format.Precedence
import ModuleMap.Proofs.Override.Absolute
import ModuleMap.Proofs.Tsconfig.Probes

/-!
# A file classified before it is there

A file can be classified without being there, and if it is created later it should be classified as
before.  That is so if the path that it is given under is absolute.  A file that is missing keeps
that path, and one that is there gets its canonical one, but both have the same normal form.

A relative path has a normal form of its own.  It has the same extension, and the walk for the
manifest starts from its absolute form; but overrides are matched with the path as it is, and they
match no relative one.  So an override comes to count only when the file is created.

* `FileTree.LooksForManifest`, `Settings.LooksAt`: the paths asked for when a file is classified.
* `FileTree.Gains.scopeOf_eq`, `ModuleFormat.resolve_fst_congr`,
  `Settings.loadOverrides_congr`: what scopes, formats and overrides depend on.
* `Settings.absoluteInput_spec`: the path that a file is classified under.
* `Settings.classify_created`: a file that is classified before and after it is created.
* `Settings.classify_created_relative`: an override that counts only afterwards.
-/

namespace ModuleMap

variable {t u : FileTree} {loc : Location} {p q : Path}

/-! ## The walk for the manifest -/

namespace FileTree

/-- The paths asked for when the scope of what has this normal form is looked for. -/
def LooksForManifest (t : FileTree) (start q : Path) : Prop :=
  ∃ d, IsAsked t.scopeAt? start.enclosing d ∧ d.fileName? ≠ some boundaryName ∧
    q = d.join manifestName

/-- Above the new file the same scope is found, unless the file is a manifest that is looked for. -/
theorem Gains.scopeAmong_eq (h : Gains t u loc)
    (hloc : ∀ n ∈ loc, Path.IsNaming n ∧ n ≠ Path.dotDot)
    (hlooks : ∀ q, t.LooksForManifest (pathOf loc) q → u.locate q ≠ .ok ⟨loc, 0⟩) :
    u.scopeAmong (pathOf loc).enclosing = t.scopeAmong (pathOf loc).enclosing := by
  unfold scopeAmong
  rw [findSome?_congr_isAsked fun d hd => ?_]
  have hlook := fun hboundary => hlooks _ ⟨d, hd, hboundary, rfl⟩
  obtain ⟨below, above, hsplit, -⟩ := hd
  have hmem : d ∈ (pathOf loc).enclosing := hsplit ▸ by simp
  obtain ⟨k, hk, rfl⟩ := List.mem_map.mp hmem
  have hnames : (pathOf loc).names = loc := Path.names_ofBody_root fun n hn => (hloc n hn).1
  rw [hnames] at hk hlook ⊢
  have hk' : k < loc.length := List.mem_range.mp (List.mem_reverse.mp hk)
  have hmanifest : Path.IsNaming manifestName.bytes := ⟨by decide, by decide⟩
  have hns : ∀ n ∈ loc.take k ++ [manifestName.bytes], Path.IsNaming n ∧ n ≠ Path.dotDot := by
    rw [List.forall_mem_append, List.forall_mem_singleton]
    exact ⟨fun n hn => hloc n (List.mem_of_mem_take hn), hmanifest, by decide⟩
  have hjoin : (Path.ofBody .root (loc.take k)).join manifestName =
      .ofBody .root (loc.take k ++ [manifestName.bytes]) :=
    Path.join_ofBody (by decide) (fun n hn => (hloc n (List.mem_of_mem_take hn)).1) hmanifest
  unfold scopeAt?
  by_cases hboundary : (Path.ofBody .root (loc.take k)).fileName? = some boundaryName
  · rw [if_pos hboundary, if_pos hboundary]
  · rw [if_neg hboundary, if_neg hboundary]
    have hne := hlook hboundary
    have hlocate := h.locate_ofBody_root_eq (fun n hn => (hns n hn).1)
      (fun hmem => (hns _ hmem).2 rfl) (by simp; omega) (hjoin ▸ hne)
    rw [← hjoin] at hlocate
    rw [h.readText_eq hlocate hne]

/-- So it is for the new file itself, whatever path is followed to it. -/
theorem Gains.scopeOf_eq (h : Gains t u loc) (hp : u.locate p = .ok ⟨loc, 0⟩)
    (hslash : p.endsWithSlash = false) (hcwd : p.isAbsolute = true ∨ u.IsWellNamed)
    (hlooks : ∀ start, t.resolve p = .ok start →
      ∀ q, t.LooksForManifest start q → u.locate q ≠ .ok ⟨loc, 0⟩) :
    u.scopeOf p = t.scopeOf p := by
  unfold scopeOf
  rw [h.resolve_eq]
  cases hstart : t.resolve p with
  | error e => rfl
  | ok start =>
    obtain ⟨rfl, hloc⟩ := resolve_eq_pathOf hp hslash hcwd ((h.resolve_eq p).trans hstart)
    exact h.scopeAmong_eq hloc (hlooks _ hstart)

end FileTree

/-! ## What a format depends on -/

/-- Where overrides and extensions say the same, only package scopes can tell formats apart, and
only if they are needed. -/
theorem ModuleFormat.resolve_fst_congr {o : Overrides} {packageScoped : Bool}
    (hlookup : o.lookup? p = o.lookup? q) (hname : p.fileName? = q.fileName?)
    (hscope : NeedsScope o p packageScoped → t.scopeOf p = u.scopeOf q) :
    (resolve t o .empty p packageScoped).1 = (resolve u o .empty q packageScoped).1 := by
  have hext : p.extension? = q.extension? := by rw [Path.extension?, hname, ← Path.extension?]
  have hformat : ofExtension? p packageScoped = ofExtension? q packageScoped := by
    rw [ofExtension?, hext, ← ofExtension?]
  have hopen : o.lookup? q ≠ some .cjs → o.lookup? q ≠ some .esm →
      (classify t .empty p packageScoped).1 = (classify u .empty q packageScoped).1 := by
    intro hcjs hesm
    rw [(ScopeCache.coherent_empty t).classify_eq_formatOf,
      (ScopeCache.coherent_empty u).classify_eq_formatOf, FileTree.formatOf, FileTree.formatOf,
      hformat]
    cases hnone : ofExtension? q packageScoped with
    | some format => rfl
    | none =>
      have ho : ¬ IsForced o p := by
        rw [IsForced, ← Overrides.lookup?_eq_some_iff, ← Overrides.lookup?_eq_some_iff, hlookup]
        exact not_or.mpr ⟨hcjs, hesm⟩
      rw [hscope ⟨ho, ofExtension?_eq_none_iff.mp (hformat.trans hnone)⟩]
  unfold resolve
  rw [hlookup]
  cases hkind : o.lookup? q with
  | none => exact hopen (by simp [hkind]) (by simp [hkind])
  | some kind =>
    cases kind with
    | cjs => rfl
    | esm => rfl
    | package => exact hopen (by simp [hkind]) (by simp [hkind])

/-! ## What a run depends on -/

namespace Settings

variable {s : Settings} {packageScoped : Bool} {file : Path}

/-- The paths asked for when a file is classified by itself. -/
inductive LooksAt (s : Settings) (t : FileTree) (packageScoped : Bool) (file : Path) : Path → Prop
  /-- In search of the nearest config. -/
  | nearest {q : Path} (hproject : s.project = none) (hq : t.LooksForConfig s.cwd q) :
    LooksAt s t packageScoped file q
  /-- To load the config. -/
  | config {p path q : Path} (hp : s.configPath? t = some p) (hpath : t.resolve p = .ok path)
      (hq : Tsconfig.LooksAt t [] path q) : LooksAt s t packageScoped file q
  /-- To find the package scope, if it is needed. -/
  | manifest {o : Overrides} {start q : Path} (ho : s.loadOverrides t = some (.ok o))
      (hneeds : ModuleFormat.NeedsScope o (s.absoluteInput t file) packageScoped)
      (hstart : t.resolve (s.absoluteInput t file) = .ok start)
      (hq : t.LooksForManifest start q) : LooksAt s t packageScoped file q

/-- A run on one file loads the overrides, resolves the format, and prints the result. -/
theorem classify_singleton (s : Settings) (t : FileTree) (file : Path) (packageScoped json : Bool) :
    s.classify t [file] packageScoped json =
      (s.loadOverrides t).map (· >>= fun o =>
        let p := s.absoluteInput t file
        match (ModuleFormat.resolve t o .empty p packageScoped).1 with
        | .error f => .error (.ofFault ["Failed to classify " ++ p.display] f)
        | .ok format => ClassifyResult.printed packageScoped json [⟨p, format, o.lookup? p⟩]) := by
  rw [classify_eq_printed]
  congr 1
  funext overrides
  obtain r | o := overrides
  · rfl
  show ([s.absoluteInput t file].mapM (classifyOne t o packageScoped) >>= _) = _
  rw [List.mapM_cons, List.mapM_nil, classifyOne]
  show _ = match (ModuleFormat.resolve t o .empty (s.absoluteInput t file) packageScoped).1 with
    | .error f => _
    | .ok format => _
  cases (ModuleFormat.resolve t o .empty (s.absoluteInput t file) packageScoped).1 <;> rfl

/-- Runs whose overrides load alike, and that find the same override and format for the file, have
no answer, or fail, or report the same. -/
theorem classify_singleton_congr
    (hload : ending (s.loadOverrides t) = ending (s.loadOverrides u))
    (hlookup : ∀ o, s.loadOverrides t = some (.ok o) →
      o.lookup? (s.absoluteInput t file) = o.lookup? (s.absoluteInput u file))
    (hformat : ∀ o, s.loadOverrides t = some (.ok o) →
      (ModuleFormat.resolve t o .empty (s.absoluteInput t file) packageScoped).1 =
        (ModuleFormat.resolve u o .empty (s.absoluteInput u file) packageScoped).1) :
    (∀ json, s.classify t [file] packageScoped json = none ∧
      s.classify u [file] packageScoped json = none) ∨
    (∃ r r', ∀ json, s.classify t [file] packageScoped json = some (.error r) ∧
      s.classify u [file] packageScoped json = some (.error r')) ∨
    ∃ format forced, ∀ json,
      s.classify t [file] packageScoped json =
        some (ClassifyResult.printed packageScoped json
          [⟨s.absoluteInput t file, format, forced⟩]) ∧
      s.classify u [file] packageScoped json =
        some (ClassifyResult.printed packageScoped json
          [⟨s.absoluteInput u file, format, forced⟩]) := by
  simp only [classify_singleton]
  rcases ending_cases hload with ⟨ht, hu⟩ | ⟨r, r', ht, hu⟩ | ⟨o, ht, hu⟩
  · rw [ht, hu]
    exact Or.inl fun json => ⟨rfl, rfl⟩
  · rw [ht, hu]
    exact Or.inr (Or.inl ⟨r, r', fun json => ⟨rfl, rfl⟩⟩)
  · have hsame := hformat o ht
    have hforced := hlookup o ht
    rw [ht, hu]
    simp only [Option.map_some, bind, Except.bind]
    rw [hsame, hforced]
    cases (ModuleFormat.resolve u o .empty (s.absoluteInput u file) packageScoped).1 with
    | error f => exact Or.inr (Or.inl ⟨_, _, fun json => ⟨rfl, rfl⟩⟩)
    | ok format => exact Or.inr (Or.inr ⟨format, _, fun json => ⟨rfl, rfl⟩⟩)

/-- Without a config there are no overrides. -/
theorem loadOverrides_of_configPath?_eq_none (h : s.configPath? t = none) :
    s.loadOverrides t = some (.ok {}) := by
  rw [loadOverrides, loadConfig, h]
  rfl

/-- With one they are made from what is loaded. -/
theorem loadOverrides_of_configPath? (h : s.configPath? t = some p) :
    s.loadOverrides t = (Tsconfig.load t p).map fun
      | .ok c => overridesOf (some c)
      | .error f => .error (.ofFault ["Failed to load " ++ p.display] f) := by
  rw [loadOverrides, loadConfig, h]
  show ((Tsconfig.load t p).map _).map _ = _
  rcases Tsconfig.load t p with _ | (f | c) <;> rfl

/-- The overrides of a run are those of its config, if there is one. -/
theorem loadOverrides_eq_ok_iff {o : Overrides} :
    s.loadOverrides t = some (.ok o) ↔
      s.configPath? t = none ∧ o = {} ∨
        ∃ p c, s.configPath? t = some p ∧ Tsconfig.load t p = some (.ok c) ∧
          c.overrides = .ok o := by
  cases hp : s.configPath? t with
  | none => simp [loadOverrides_of_configPath?_eq_none hp, eq_comm]
  | some p =>
    rw [loadOverrides_of_configPath? hp]
    rcases hc : Tsconfig.load t p with _ | (f | c)
    · simp [hc]
    · simp [hc]
    · cases ho : c.overrides <;> simp [overridesOf, Except.mapError, hc, ho]

/-- Where the paths asked for have the same answers, the overrides load alike. -/
theorem loadOverrides_congr (hgains : FileTree.Gains t u loc)
    (h : ∀ q, s.LooksAt t packageScoped file q → FileTree.AnswersAlike t u q) :
    ending (s.loadOverrides t) = ending (s.loadOverrides u) := by
  have hconfigPath : s.configPath? u = s.configPath? t := by
    unfold configPath?
    cases hproject : s.project with
    | some p => rfl
    | none => exact FileTree.nearestConfig?_congr fun q hq => h q (.nearest hproject hq)
  cases hp : s.configPath? t with
  | none =>
    rw [loadOverrides_of_configPath?_eq_none hp,
      loadOverrides_of_configPath?_eq_none (hconfigPath.trans hp)]
  | some p =>
    rw [loadOverrides_of_configPath? hp, loadOverrides_of_configPath? (hconfigPath.trans hp)]
    exact ending_map_congr (fun f => ⟨_, rfl⟩) <| Tsconfig.load_congr (hgains.resolve_eq p)
      fun path hpath q hq => h q (.config hp hpath hq)

/-- No overrides of a run match a relative path. -/
theorem lookup?_eq_none_of_loadOverrides {o : Overrides} (ho : s.loadOverrides t = some (.ok o))
    (hp : p.isAbsolute = false) : o.lookup? p = none := by
  rcases loadOverrides_eq_ok_iff.mp ho with ⟨-, rfl⟩ | ⟨path, c, -, hc, ho⟩
  · have hnone : Overrides.compile .root [] = .ok {} := rfl
    exact Overrides.lookup?_eq_none_of_compile hnone (Or.inl rfl) hp
  · exact Tsconfig.lookup?_eq_none_of_load hc ho hp

/-- A config in the working directory is the one to load. -/
theorem configPath?_of_configIn? (hproject : s.project = none)
    (hnearest : t.configIn? s.cwd = some p) : s.configPath? t = some p := by
  rw [configPath?, hproject, Option.none_or, FileTree.nearestConfig?_eq_findUp?, Path.findUp?,
    hnearest]

/-- With a config in the working directory that extends nothing, and without the rules of package
scopes, nothing but this config is asked for. -/
theorem eq_of_looksAt {path : Path} {d : Declared} (hproject : s.project = none)
    (hnearest : t.configIn? s.cwd = some p) (hpath : t.resolve p = .ok path)
    (hd : Declared.load t path = .ok d) (hbases : d.bases = [])
    (hq : s.LooksAt t false file q) : q = p ∨ q = path := by
  cases hq with
  | nearest _ hq =>
    obtain ⟨a, ⟨before, after, hsplit, hbefore⟩, rfl⟩ := hq
    rcases before with _ | ⟨b, before⟩
    · obtain rfl : s.cwd = a := (List.cons.inj hsplit).1
      unfold FileTree.configIn? at hnearest
      split_ifs at hnearest
      exact Or.inl (Option.some.inj hnearest)
    · obtain rfl : s.cwd = b := (List.cons.inj hsplit).1
      cases hnearest.symm.trans (hbefore _ List.mem_cons_self)
  | @config p' path' _ hp' hpath' hq =>
    have hfound := configPath?_of_configIn? hproject hnearest
    obtain rfl : p = p' := Option.some.inj (hfound.symm.trans hp')
    obtain rfl : path = path' := Except.ok.inj (hpath.symm.trans hpath')
    cases hq with
    | config _ => exact Or.inr rfl
    | value hvisit hsplit _ _ =>
      obtain rfl := Except.ok.inj (hd.symm.trans (Tsconfig.visit_eq_ok_iff.mp hvisit).2)
      simp [hbases] at hsplit
    | base hvisit hsplit _ _ =>
      obtain rfl := Except.ok.inj (hd.symm.trans (Tsconfig.visit_eq_ok_iff.mp hvisit).2)
      simp [hbases] at hsplit
  | manifest _ hneeds _ _ => cases hneeds.2.2

/-! ## The path of the file -/

/-- A path under which there is nothing is kept as it is joined. -/
theorem absoluteInput_of_locate {e : PathError} (hrefusal : t.refusal? (s.cwd.join file) = none)
    (h : t.locate (s.cwd.join file) = .error e) : s.absoluteInput t file = s.cwd.join file := by
  unfold absoluteInput
  cases hcanonical : t.canonical? (s.cwd.join file) with
  | none => rfl
  | some q =>
    obtain ⟨l, hlocate, -⟩ := FileTree.exists_locate_of_canonical? hrefusal hcanonical
    cases h.symm.trans hlocate

/-- A path that leads to a location is kept, too, or else the path of the location is taken, which
is its normal form. -/
theorem absoluteInput_cases (hlocate : t.locate (s.cwd.join file) = .ok ⟨loc, 0⟩)
    (hslash : (s.cwd.join file).endsWithSlash = false)
    (hcwd : (s.cwd.join file).isAbsolute = true ∨ t.IsWellNamed) :
    s.absoluteInput t file = s.cwd.join file ∨
      s.absoluteInput t file = FileTree.pathOf loc ∧
        t.resolve (s.cwd.join file) = .ok (FileTree.pathOf loc) ∧
        ∀ n ∈ loc, Path.IsNaming n ∧ n ≠ Path.dotDot := by
  unfold absoluteInput
  cases hcanonical : t.canonical? (s.cwd.join file) with
  | none => exact Or.inl rfl
  | some q =>
    have hrefusal := (FileTree.locate_eq_ok_iff.mp hlocate).1
    obtain ⟨l, hlocate', rfl, hstart⟩ := FileTree.exists_locate_of_canonical? hrefusal hcanonical
    cases hlocate.symm.trans hlocate'
    obtain ⟨-, hne, -⟩ := FileTree.refusal?_eq_none_iff.mp hrefusal
    obtain ⟨path, hpath⟩ := FileTree.exists_resolve_eq_ok hne hstart
    obtain ⟨rfl, hnames⟩ := FileTree.resolve_eq_pathOf hlocate hslash hcwd hpath
    exact Or.inr ⟨rfl, hpath, hnames⟩

/-- The path that a file is classified under has its normal form and its name. -/
theorem absoluteInput_spec {dir : Location} {name : Segment}
    (hlocate : t.locate (s.cwd.join file) = .ok ⟨dir ++ [name], 0⟩)
    (hslash : (s.cwd.join file).endsWithSlash = false)
    (hname : (s.cwd.join file).fileName? = some name)
    (hcwd : (s.cwd.join file).isAbsolute = true ∨ t.IsWellNamed) :
    t.resolve (s.absoluteInput t file) = t.resolve (s.cwd.join file) ∧
      (s.absoluteInput t file).fileName? = (s.cwd.join file).fileName? ∧
      ((s.cwd.join file).isAbsolute = true →
        (s.absoluteInput t file).normalize = (s.cwd.join file).normalize) := by
  rcases absoluteInput_cases hlocate hslash hcwd with hinput | ⟨hinput, hresolve, hnames⟩
  · rw [hinput]
    exact ⟨rfl, rfl, fun _ => rfl⟩
  · have hself := t.resolve_pathOf (List.concat_ne_nil name dir) hnames
    rw [hinput]
    refine ⟨hself.trans hresolve.symm, ?_, fun habsolute => ?_⟩
    · have hlast : name ≠ Path.dotDot := (hnames name (by simp)).2
      rw [hname, FileTree.pathOf, Path.fileName?,
        Path.names_ofBody_root fun n hn => (hnames n hn).1, List.getLast?_concat]
      simp [hlast]
    · rw [FileTree.resolve_of_isAbsolute t habsolute, ← hself,
        FileTree.resolve_of_isAbsolute t rfl] at hresolve
      exact (Except.ok.inj hresolve).symm

/-! ## A file before and after it is created -/

/-- **A file is classified as if it were there.**  A file that is missing is classified, then it is
created as an empty file and classified again, and it is none of the files that are asked for in
between.  Then the command has no answer both times, or it fails both times, or it reports the same
format and the same override.  This holds for an absolute path.  For a relative one, taken from a
directory whose names can be spelled, it holds if no override matches the path under which the file
is found once it is there. -/
theorem classify_created (hcreated : t.writeFile (s.cwd.join file) [] = .ok u)
    (habsent : t.nodeAt (s.cwd.join file) = .error .notFound)
    (hprobed : ∀ q, s.LooksAt t packageScoped file q → ¬ u.SameFile q (s.cwd.join file))
    (hspelling : (s.cwd.join file).isAbsolute = true ∨
      t.IsWellNamed ∧
        ∀ o, s.loadOverrides t = some (.ok o) → o.lookup? (s.absoluteInput u file) = none) :
    (∀ json, s.classify t [file] packageScoped json = none ∧
      s.classify u [file] packageScoped json = none) ∨
    (∃ r r', ∀ json, s.classify t [file] packageScoped json = some (.error r) ∧
      s.classify u [file] packageScoped json = some (.error r')) ∨
    ∃ format forced, ∀ json,
      s.classify t [file] packageScoped json =
        some (ClassifyResult.printed packageScoped json
          [⟨s.absoluteInput t file, format, forced⟩]) ∧
      s.classify u [file] packageScoped json =
        some (ClassifyResult.printed packageScoped json
          [⟨s.absoluteInput u file, format, forced⟩]) := by
  obtain ⟨dir, name, hgains, htlocate, hulocate, hslash, hname⟩ :=
    FileTree.exists_gains_of_writeFile hcreated habsent
  obtain ⟨bytes, hfile⟩ := hgains.present
  have hnew : ∀ q, s.LooksAt t packageScoped file q → u.locate q ≠ .ok ⟨dir ++ [name], 0⟩ :=
    fun q hq hlocate => hprobed q hq ⟨_, bytes, hlocate, hulocate, hfile⟩
  have hcwd : (s.cwd.join file).isAbsolute = true ∨ u.IsWellNamed := by
    refine hspelling.imp_right fun ⟨hwellNamed, _⟩ => ?_
    unfold FileTree.IsWellNamed at hwellNamed ⊢
    rwa [← hgains.workingDirectory]
  have hrefusal : t.refusal? (s.cwd.join file) = none :=
    (hgains.refusal?_eq _).trans (FileTree.locate_eq_ok_iff.mp hulocate).1
  have hinput : s.absoluteInput t file = s.cwd.join file :=
    absoluteInput_of_locate hrefusal htlocate
  obtain ⟨hresolve, hfileName, hnormal⟩ := absoluteInput_spec hulocate hslash hname hcwd
  have hlookup : ∀ o, s.loadOverrides t = some (.ok o) →
      o.lookup? (s.absoluteInput t file) = o.lookup? (s.absoluteInput u file) := by
    intro o ho
    rw [hinput]
    cases habsolute : (s.cwd.join file).isAbsolute with
    | true => simp only [Overrides.lookup?, hnormal habsolute]
    | false =>
      rw [lookup?_eq_none_of_loadOverrides ho habsolute]
      exact ((hspelling.resolve_left (by simp [habsolute])).2 o ho).symm
  refine classify_singleton_congr
    (loadOverrides_congr hgains fun q hq => hgains.answersAlike (hnew q hq)) hlookup
    fun o ho => ?_
  refine ModuleFormat.resolve_fst_congr (hlookup o ho) (by rw [hinput, hfileName])
    fun hneeds => ?_
  have hscope : u.scopeOf (s.absoluteInput u file) = u.scopeOf (s.cwd.join file) := by
    unfold FileTree.scopeOf
    rw [hresolve]
  rw [hinput, hscope, hgains.scopeOf_eq hulocate hslash hcwd fun start hstart q hq => ?_]
  exact hnew q (.manifest ho hneeds (hinput ▸ hstart) hq)

/-- A directory whose config forces CommonJS on the scripts in it, as the working directory. -/
def forcedScripts : FileTree where
  contents :=
    [(Text.encode "p".toList, .directory
      [(Text.encode "tsconfig.json".toList, configFile
        [("tsmap", .object [("moduleTypes", .object [("*.js", .string "cjs")])])])])]
  workingDirectory := ⟨[Text.encode "p".toList], 0⟩

/-- The same directory with an empty script in it. -/
def forcedScripts.created : FileTree :=
  forcedScripts.put [Text.encode "p".toList, Text.encode "a.js".toList] (.file [])

/-- What the config of the directory says. -/
def forcedScripts.overrides : Overrides :=
  ⟨[("/p/".toList.map .literal ++ [.anyName] ++ ".js".toList.map .literal, .cjs)]⟩

/-- Under its absolute path and as `.` the directory has the same config. -/
theorem configIn?_forcedScripts {cwd : Path} (ht : t = forcedScripts ∨ t = forcedScripts.created)
    (hcwd : cwd = .ofText "/p" ∨ cwd = .here) :
    t.configIn? cwd = some (cwd.join configName) ∧
      t.resolve (cwd.join configName) = .ok (.ofText "/p/tsconfig.json") := by
  rcases ht with rfl | rfl <;> rcases hcwd with rfl | rfl <;> decide +kernel

theorem loadOverrides_forcedScripts {cwd : Path}
    (ht : t = forcedScripts ∨ t = forcedScripts.created)
    (hcwd : cwd = .ofText "/p" ∨ cwd = .here) :
    loadOverrides { cwd } t = some (.ok forcedScripts.overrides) := by
  obtain ⟨hnearest, hpath⟩ := configIn?_forcedScripts ht hcwd
  have hchain : (Tsconfig.loadWithin t 2 [] (.ofText "/p/tsconfig.json")).bind Except.toOption =
      some ⟨.empty, {}, [⟨"*.js", .cjs⟩], .ofText "/p"⟩ := by
    rcases ht with rfl | rfl <;> decide +kernel
  exact loadOverrides_eq_ok_iff.mpr (Or.inr ⟨_, _, configPath?_of_configIn? rfl hnearest,
    Tsconfig.load_of_loadWithin hpath hchain, by decide +kernel⟩)

/-- The script is none of what is asked for. -/
theorem not_sameFile_forcedScripts {cwd : Path} (hcwd : cwd = .ofText "/p" ∨ cwd = .here)
    (hq : LooksAt { cwd } forcedScripts false (.ofText "a.js") q) :
    ¬ forcedScripts.created.SameFile q (cwd.join (.ofText "a.js")) := by
  have hd : Declared.load forcedScripts (.ofText "/p/tsconfig.json") =
      .ok { moduleTypes := some [("*.js", .cjs)] } := by decide +kernel
  obtain ⟨hnearest, hpath⟩ := configIn?_forcedScripts (Or.inl rfl) hcwd
  rintro ⟨place, bytes, hplace, hfile, -⟩
  have hsame := hplace.trans hfile.symm
  revert hsame
  rcases eq_of_looksAt rfl hnearest hpath hd rfl hq with rfl | rfl <;>
    rcases hcwd with rfl | rfl <;> decide +kernel

/-- Under its absolute path the script is CommonJS, whether or not it is there. -/
theorem classify_created_absolute :
    let s : Settings := { cwd := .ofText "/p" }
    let file := Path.ofText "a.js"
    (forcedScripts.writeFile (s.cwd.join file) [] = .ok forcedScripts.created ∧
      forcedScripts.nodeAt (s.cwd.join file) = .error .notFound ∧
      (∀ q, s.LooksAt forcedScripts false file q →
        ¬ forcedScripts.created.SameFile q (s.cwd.join file)) ∧
      (s.cwd.join file).isAbsolute = true) ∧
    s.classify forcedScripts [file] false false = some (.ok "/p/a.js: cjs (moduleTypes: cjs)\n") ∧
    s.classify forcedScripts.created [file] false false =
      some (.ok "/p/a.js: cjs (moduleTypes: cjs)\n") := by
  intro s file
  have hcreated : forcedScripts.writeFile (s.cwd.join file) [] = .ok forcedScripts.created := rfl
  have habsent : forcedScripts.nodeAt (s.cwd.join file) = .error .notFound := by rfl
  have hprobed : ∀ q, s.LooksAt forcedScripts false file q →
      ¬ forcedScripts.created.SameFile q (s.cwd.join file) :=
    fun q hq => not_sameFile_forcedScripts (Or.inl rfl) hq
  have hbefore : s.classify forcedScripts [file] false false =
      some (.ok "/p/a.js: cjs (moduleTypes: cjs)\n") := by
    rw [classify_singleton, loadOverrides_forcedScripts (Or.inl rfl) (Or.inl rfl)]
    decide +kernel
  refine ⟨⟨hcreated, habsent, hprobed, rfl⟩, hbefore, ?_⟩
  have hinput :
      s.absoluteInput forcedScripts.created file = s.absoluteInput forcedScripts file := by
    decide +kernel
  rcases classify_created hcreated habsent hprobed (Or.inl rfl) with
    hnone | ⟨r, r', hfails⟩ | ⟨format, forced, hprints⟩
  · cases hbefore.symm.trans (hnone false).1
  · cases hbefore.symm.trans (hfails false).1
  · rw [(hprints false).2, hinput, ← (hprints false).1, hbefore]

/-- **A file that an override finds only when it is there.**  The working directory is given as `.`.
The script is missing, and no override counts for it; it is created, and the config forces
CommonJS. -/
theorem classify_created_relative :
    let s : Settings := { cwd := .here }
    let file := Path.ofText "a.js"
    (forcedScripts.writeFile (s.cwd.join file) [] = .ok forcedScripts.created ∧
      forcedScripts.nodeAt (s.cwd.join file) = .error .notFound ∧
      ∀ q, s.LooksAt forcedScripts false file q →
        ¬ forcedScripts.created.SameFile q (s.cwd.join file)) ∧
    s.classify forcedScripts [file] false false = some (.ok "./a.js: unspecified\n") ∧
    s.classify forcedScripts.created [file] false false =
      some (.ok "/p/a.js: cjs (moduleTypes: cjs)\n") := by
  intro s file
  refine ⟨⟨rfl, by rfl, fun q hq => not_sameFile_forcedScripts (Or.inr rfl) hq⟩, ?_, ?_⟩
  · rw [classify_singleton, loadOverrides_forcedScripts (Or.inl rfl) (Or.inr rfl)]
    decide +kernel
  · rw [classify_singleton, loadOverrides_forcedScripts (Or.inr rfl) (Or.inr rfl)]
    decide +kernel

end Settings

end ModuleMap
