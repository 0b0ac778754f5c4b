import ModuleMap.Proofs.FileTree.Passed
import ModuleMap.Tsconfig.Extends

/-!
# The nearest config

The search for a config takes one name after the other away from the path of a directory.  So it
looks at the places that these names lead through, from the last one back to the place that the path
starts from.  Without `..` among the names, this is the way up.  A `..` is taken away like a name
that leads into a directory: the directory that it has led out of is looked at, too.  And above the
place that a relative path starts from the search never looks.

* `FileTree.holdsConfig`, `FileTree.holdsConfig_iff`: whether there is a config in a place.
* `FileTree.firstConfig?`, `FileTree.map_locate_findUp?`: the search gives the first config in the
  places passed.
* `FileTree.IsNearestConfig`: the config of the innermost directory that holds one.
* `FileTree.nearestConfig?_eq_passed`: what is found for a directory, and that without `..` this is
  the nearest config.
-/

namespace ModuleMap.FileTree

variable {t : FileTree} {p q : Path} {place last next : Place} {ss : List Segment} {s : Segment}

/-! ## Configs in places -/

theorem isNaming_configName : Path.IsNaming configName.bytes ∧ configName.bytes ≠ Path.dotDot :=
  ⟨⟨by decide, by decide⟩, by decide⟩

/-- Whether there is a config in a place. -/
def holdsConfig (t : FileTree) (place : Place) : Bool :=
  match (t.step place configName.bytes).bind t.nodeOf with
  | .ok (.file _) => true
  | _ => false

/-- The config in a place is at the location of its name. -/
theorem step_of_holdsConfig (h : t.holdsConfig place = true) :
    t.step place configName.bytes = .ok ⟨place.location ++ [configName.bytes], 0⟩ := by
  unfold holdsConfig at h
  obtain ⟨loc, removed⟩ := place
  obtain ⟨⟨-, hvoid⟩, hne⟩ := isNaming_configName
  cases removed with
  | succ n => simp [step, hvoid, hne, Except.bind] at h
  | zero =>
    cases hstep : t.step ⟨loc, 0⟩ configName.bytes with
    | error e => simp [hstep, Except.bind] at h
    | ok next =>
      rw [step_of_ne_dotDot hne hstep]
      simp [hvoid]

/-- There is a config in a directory if a file there has its name, and if that is not too long. -/
theorem holdsConfig_iff {loc : Location} :
    t.holdsConfig ⟨loc, 0⟩ = true ↔
      exceeds t.nameLimit configName.bytes = false ∧
        ∃ bytes, t.node? (loc ++ [configName.bytes]) = some (.file bytes) := by
  obtain ⟨⟨-, hvoid⟩, hne⟩ := isNaming_configName
  constructor
  · intro h
    have hstep := step_of_holdsConfig h
    unfold holdsConfig at h
    rw [hstep] at h
    refine ⟨?_, ?_⟩
    · simp only [step, enter, hvoid, hne, Except.map] at hstep
      split_ifs at hstep <;> simp_all
    · simp only [Except.bind, nodeOf, nodeIn?] at h
      cases hnode : t.node? (loc ++ [configName.bytes]) with
      | none => simp [hnode] at h
      | some n =>
        cases n with
        | file bytes => exact ⟨bytes, rfl⟩
        | directory es => simp [hnode] at h
  · rintro ⟨hlimit, bytes, hfile⟩
    have hstep : t.step ⟨loc, 0⟩ configName.bytes = .ok ⟨loc ++ [configName.bytes], 0⟩ := by
      simp [step, enter, hasDirectory_of_node?_concat hfile, hvoid, hne, hlimit, hfile,
        Except.map]
    simp [holdsConfig, hstep, Except.bind, nodeOf, nodeIn?, hfile]

/-- The place of the first config, where places are looked at one after the other. -/
def firstConfig? (t : FileTree) (places : List Place) : Option Place :=
  (places.find? t.holdsConfig).map fun place => ⟨place.location ++ [configName.bytes], 0⟩

theorem firstConfig?_cons (t : FileTree) (place : Place) (places : List Place) :
    t.firstConfig? (place :: places) =
      if t.holdsConfig place then some ⟨place.location ++ [configName.bytes], 0⟩
      else t.firstConfig? places := by
  unfold firstConfig?
  rw [List.find?_cons]
  cases t.holdsConfig place <;> rfl

/-! ## The search -/

/-- The config in a directory, if it holds one. -/
def configIn? (t : FileTree) (d : Path) : Option Path :=
  if t.isFile (d.join configName) then some (d.join configName) else none

theorem nearestConfig?_eq_findUp? (t : FileTree) (cwd : Path) :
    t.nearestConfig? cwd = Path.findUp? t.configIn? (cwd.names.length + 1) cwd := rfl

/-- The path of a config names what its name leads to. -/
theorem locate_join_configName (hrefusal : t.refusal? (p.join configName) = none)
    (hwalk : t.walk (t.start p) p.names = .ok place) (hopen : t.IsOpen place) :
    t.locate (p.join configName) = t.step place configName.bytes := by
  obtain ⟨init, hsegments, hnames⟩ :=
    p.exists_segments_join (by decide : configName.isAbsolute = false)
  have hstart : t.start (p.join configName) = t.start p := by
    unfold start
    rw [Path.isAbsolute_join_eq p (by decide)]
  have hinit : t.walk (t.start p) init = .ok place :=
    hopen.walk_of_walk_filter (hnames ▸ hwalk)
  have hname : configName.segments = [configName.bytes] := by decide
  rw [locate, hrefusal, hstart, hsegments, hname]
  show t.walk (t.start p) (init ++ [configName.bytes]) = _
  rw [walk_append, hinit]
  exact walk_singleton t place _

theorem configIn?_eq (hrefusal : t.refusal? (p.join configName) = none)
    (hwalk : t.walk (t.start p) p.names = .ok place) (hopen : t.IsOpen place) :
    t.configIn? p = if t.holdsConfig place then some (p.join configName) else none := by
  have hnode : t.nodeAt (p.join configName) = (t.step place configName.bytes).bind t.nodeOf := by
    rw [nodeAt_eq, locate_join_configName hrefusal hwalk hopen]
  have hfile : t.isFile (p.join configName) = t.holdsConfig place := by
    unfold isFile holdsConfig
    generalize t.nodeAt (p.join configName) = found at hnode ⊢
    subst hnode
    rfl
  rw [configIn?, hfile]

/-- The path of a config is refused only for its directory's bytes and for its length. -/
theorem refusal?_join_configName (hnul : 0 ∉ p.bytes)
    (hlimit : exceeds t.pathLimit (p.join configName).bytes = false) :
    t.refusal? (p.join configName) = none := by
  obtain ⟨sep, hsep, hbytes⟩ := p.exists_bytes_join (by decide : configName.isAbsolute = false)
  refine refusal?_eq_none_iff.mpr ⟨?_, ?_, hlimit⟩
  · rw [hbytes, List.mem_append, List.mem_append, not_or, not_or]
    refine ⟨⟨hnul, ?_⟩, by decide⟩
    rcases hsep with rfl | rfl <;> decide
  · rw [hbytes]
    exact List.append_ne_nil_of_right_ne_nil _ (by decide)

/-- If the config of a directory is not refused, then neither is that of its parent. -/
theorem refusal?_join_of_parent? (h : p.parent? = some q)
    (hrefusal : t.refusal? (p.join configName) = none) :
    t.refusal? (q.join configName) = none := by
  obtain ⟨sep, -, hbytes⟩ := p.exists_bytes_join (by decide : configName.isAbsolute = false)
  obtain ⟨sep', hsep', hbytes'⟩ := q.exists_bytes_join (by decide : configName.isAbsolute = false)
  obtain ⟨hfront, hlt⟩ := Path.isPrefix_bytes_of_parent? h
  obtain ⟨hnul, -, hlimit⟩ := refusal?_eq_none_iff.mp hrefusal
  refine refusal?_join_configName (fun hmem => hnul ?_) (exceeds_of_length_le ?_ hlimit)
  · rw [hbytes, List.append_assoc]
    exact List.mem_append_left _ (hfront.subset hmem)
  · have hsep : sep'.length ≤ 1 := by rcases hsep' with rfl | rfl <;> decide
    rw [hbytes, hbytes']
    simp only [List.length_append]
    omega

/-- A config in the place that the path leads to is the first. -/
theorem map_locate_findUp?_of_holdsConfig (n : Nat)
    (hrefusal : t.refusal? (p.join configName) = none)
    (hwalk : t.walk (t.start p) p.names = .ok place) (hopen : t.IsOpen place)
    (hholds : t.holdsConfig place = true) :
    (Path.findUp? t.configIn? n p).map t.locate =
      (t.firstConfig? (t.passed (t.start p) p.names)).map .ok := by
  obtain ⟨rest, hrest⟩ := exists_passed_eq_cons hwalk
  have hconfig : t.configIn? p = some (p.join configName) := by
    rw [configIn?_eq hrefusal hwalk hopen, if_pos hholds]
  have hfound : Path.findUp? t.configIn? n p = some (p.join configName) := by
    cases n <;> simp only [Path.findUp?, hconfig]
  rw [hfound, hrest, firstConfig?_cons, if_pos hholds, Option.map_some, Option.map_some,
    locate_join_configName hrefusal hwalk hopen, step_of_holdsConfig hholds]

/-- A path without names passes no place but the one that it starts from. -/
theorem firstConfig?_passed_of_names_eq_nil (hnames : p.names = [])
    (hwalk : t.walk (t.start p) p.names = .ok place) (hholds : t.holdsConfig place = false) :
    t.firstConfig? (t.passed (t.start p) p.names) = none := by
  rw [hnames] at hwalk ⊢
  cases hwalk
  rw [passed_nil, firstConfig?_cons, hholds]
  rfl

/-- The parent passes the same places but the last, or all of them if there is no name. -/
theorem exists_walk_of_parent? (h : p.parent? = some q)
    (hwalk : t.walk (t.start p) p.names = .ok place) (hopen : t.IsOpen place) :
    ∃ mid, t.walk (t.start q) q.names = .ok mid ∧ t.IsOpen mid ∧
      (t.passed (t.start p) p.names = place :: t.passed (t.start q) q.names ∨
        t.passed (t.start p) p.names = t.passed (t.start q) q.names) := by
  have hstart : t.start q = t.start p := by
    unfold start
    rw [Path.isAbsolute_eq_of_parent? h]
  rw [hstart, Path.names_of_parent? h]
  rcases List.eq_nil_or_concat p.names with hnil | ⟨init, s, hconcat⟩
  · rw [hnil] at hwalk ⊢
    exact ⟨place, hwalk, hopen, Or.inr rfl⟩
  · rw [List.concat_eq_append] at hconcat
    rw [hconcat] at hwalk ⊢
    obtain ⟨mid, hmid, hstep⟩ := exists_of_walk_concat hwalk
    rw [List.dropLast_concat]
    exact ⟨mid, hmid, isOpen_of_step hstep, Or.inl (passed_concat hmid hstep)⟩

/-- **The search gives the first config in the places passed.** -/
theorem map_locate_findUp? {n : Nat} (hn : p.names.length ≤ n)
    (hrefusal : t.refusal? (p.join configName) = none)
    (hwalk : t.walk (t.start p) p.names = .ok place) (hopen : t.IsOpen place) :
    (Path.findUp? t.configIn? n p).map t.locate =
      (t.firstConfig? (t.passed (t.start p) p.names)).map .ok := by
  induction n generalizing p place with
  | zero =>
    cases hholds : t.holdsConfig place with
    | true => exact map_locate_findUp?_of_holdsConfig 0 hrefusal hwalk hopen hholds
    | false =>
      have hnames : p.names = [] := List.length_eq_zero_iff.mp (Nat.le_zero.mp hn)
      rw [Path.findUp?, configIn?_eq hrefusal hwalk hopen, hholds,
        firstConfig?_passed_of_names_eq_nil hnames hwalk hholds]
      rfl
  | succ n ih =>
    cases hholds : t.holdsConfig place with
    | true => exact map_locate_findUp?_of_holdsConfig (n + 1) hrefusal hwalk hopen hholds
    | false =>
      rw [Path.findUp?, configIn?_eq hrefusal hwalk hopen, hholds]
      cases hparent : p.parent? with
      | none =>
        have hnames := Path.names_eq_nil_of_parent? hparent
        rw [firstConfig?_passed_of_names_eq_nil hnames hwalk hholds]
        rfl
      | some q =>
        obtain ⟨mid, hmid, hopen', hpassed⟩ := exists_walk_of_parent? hparent hwalk hopen
        have hlength : q.names.length ≤ n := by
          rw [Path.names_of_parent? hparent, List.length_dropLast]
          omega
        have habove := ih hlength (refusal?_join_of_parent? hparent hrefusal) hmid hopen'
        have hfirst : t.firstConfig? (t.passed (t.start p) p.names) =
            t.firstConfig? (t.passed (t.start q) q.names) := by
          rcases hpassed with hpassed | hpassed
          · rw [hpassed, firstConfig?_cons, hholds]
            rfl
          · rw [hpassed]
        rw [hfirst]
        exact habove

/-! ## The nearest config -/

/-- What is found is the config of the innermost directory from `D` up to `top` that holds one; if
none of them does, nothing is found. -/
def IsNearestConfig (t : FileTree) (top D : Location) : Option Path → Prop
  | some path =>
    ∃ E, top <+: E ∧ E <+: D ∧ t.holdsConfig ⟨E, 0⟩ = true ∧
      (∀ E', E <+: E' → E' <+: D → t.holdsConfig ⟨E', 0⟩ = true → E' = E) ∧
      t.locate path = .ok ⟨E ++ [configName.bytes], 0⟩
  | none => ∀ E, top <+: E → E <+: D → t.holdsConfig ⟨E, 0⟩ = false

section IsNearestConfig

variable {top D : Location} {found : Option Path} {path : Path} {n : Segment}

/-- A directory that holds a config is the innermost one up to itself. -/
theorem isNearestConfig_of_holdsConfig (htop : top <+: D) (hD : t.holdsConfig ⟨D, 0⟩ = true)
    (hpath : t.locate path = .ok ⟨D ++ [configName.bytes], 0⟩) :
    t.IsNearestConfig top D (some path) :=
  ⟨D, htop, List.prefix_rfl, hD, fun _ hlow hhigh _ =>
    (hlow.eq_of_length_le hhigh.length_le).symm, hpath⟩

theorem isNearestConfig_none (htop : t.holdsConfig ⟨top, 0⟩ = false) :
    t.IsNearestConfig top top none := by
  intro E hlow hhigh
  rwa [← hlow.eq_of_length_le hhigh.length_le]

/-- What is nearest for a directory is so for one in it that holds no config. -/
theorem IsNearestConfig.concat (h : t.IsNearestConfig top D found)
    (hD : t.holdsConfig ⟨D ++ [n], 0⟩ = false) : t.IsNearestConfig top (D ++ [n]) found := by
  cases found with
  | none =>
    intro E hlow hhigh
    rcases List.prefix_concat_iff.mp hhigh with rfl | hhigh
    · exact hD
    · exact h E hlow hhigh
  | some path =>
    obtain ⟨E, hlow, hhigh, hE, hinnermost, hpath⟩ := h
    refine ⟨E, hlow, hhigh.trans (List.prefix_append D [n]), hE, ?_, hpath⟩
    intro E' hlow' hhigh' hE'
    rcases List.prefix_concat_iff.mp hhigh' with rfl | hhigh'
    · cases hD.symm.trans hE'
    · exact hinnermost E' hlow' hhigh' hE'

end IsNearestConfig

/-- Names without `..` lead to the location that has them at its end. -/
theorem walk_names_of_dotDot_notMem {top : Location} {ns : List Segment}
    (hns : ∀ n ∈ ns, Path.IsNaming n) (hdotDot : Path.dotDot ∉ ns)
    (hwalk : t.walk ⟨top, 0⟩ ns = .ok last) : last = ⟨top ++ ns, 0⟩ := by
  have hfilter : ns.filter (!Path.isVoid ·) = ns :=
    List.filter_eq_self.mpr fun n hn => by simp [(hns n hn).2]
  rw [walk_of_dotDot_notMem hdotDot hwalk, hfilter]

/-- From a directory that has been removed only `..` leads to a location. -/
theorem removed_eq_zero_of_walk {ns : List Segment} (hns : ∀ n ∈ ns, Path.IsNaming n)
    (hdotDot : Path.dotDot ∉ ns) (hwalk : t.walk place ns = .ok last) (hlast : last.removed = 0) :
    place.removed = 0 := by
  rcases ns with _ | ⟨n, ns⟩
  · cases hwalk
    exact hlast
  · obtain ⟨loc, removed⟩ := place
    cases removed with
    | zero => rfl
    | succ k =>
      have hn : Path.isVoid n = false := (hns n List.mem_cons_self).2
      have hne : n ≠ Path.dotDot := fun heq => hdotDot (heq ▸ List.mem_cons_self)
      simp [walk_cons, step, hn, hne] at hwalk

/-- What is found first is nearest if it is in the first place, and else it is found after it. -/
theorem isNearestConfig_or_of_firstConfig? {top D : Location} {found : Option Path}
    {places : List Place} (htop : top <+: D)
    (hfound : found.map t.locate = (t.firstConfig? (⟨D, 0⟩ :: places)).map .ok) :
    t.IsNearestConfig top D found ∨
      t.holdsConfig ⟨D, 0⟩ = false ∧ found.map t.locate = (t.firstConfig? places).map .ok := by
  rw [firstConfig?_cons] at hfound
  cases hD : t.holdsConfig ⟨D, 0⟩ with
  | false =>
    rw [hD] at hfound
    exact Or.inr ⟨rfl, hfound⟩
  | true =>
    rw [hD] at hfound
    obtain ⟨path, rfl, hpath⟩ := Option.map_eq_some_iff.mp hfound
    exact Or.inl (isNearestConfig_of_holdsConfig htop hD hpath)

/-- Without `..`, the places passed are those of the directories on the way up. -/
theorem isNearestConfig_of_firstConfig? {top : Location} {ns : List Segment} {found : Option Path}
    (hns : ∀ n ∈ ns, Path.IsNaming n) (hdotDot : Path.dotDot ∉ ns)
    (hwalk : t.walk ⟨top, 0⟩ ns = .ok last)
    (hfound : found.map t.locate = (t.firstConfig? (t.passed ⟨top, 0⟩ ns)).map .ok) :
    t.IsNearestConfig top (top ++ ns) found := by
  induction ns using List.reverseRecOn generalizing last with
  | nil =>
    rw [List.append_nil]
    rcases isNearestConfig_or_of_firstConfig? List.prefix_rfl hfound with hnearest | ⟨htop, hnone⟩
    · exact hnearest
    · obtain rfl := Option.map_eq_none_iff.mp hnone
      exact isNearestConfig_none htop
  | append_singleton ns n ih =>
    obtain ⟨mid, hmid, hstep⟩ := exists_of_walk_concat hwalk
    have hD := walk_names_of_dotDot_notMem hns hdotDot hwalk
    rw [passed_concat hmid hstep, hD] at hfound
    rcases isNearestConfig_or_of_firstConfig? (List.prefix_append top _) hfound with
      hnearest | ⟨hnone, hfound⟩
    · exact hnearest
    · rw [List.forall_mem_append] at hns
      rw [List.mem_append, not_or] at hdotDot
      rw [← List.append_assoc] at hnone ⊢
      exact (ih hns.1 hdotDot.1 hmid hfound).concat hnone

/-- **The nearest config.**  What is found for a directory is the first config in the places that
its names lead through.  If there is no `..` among the names, this is the config of the innermost
directory up to where the path starts; so for absolute paths it is the nearest of all. -/
theorem nearestConfig?_eq_passed {cwd : Path} {D : Location} (hcwd : t.locate cwd = .ok ⟨D, 0⟩)
    (hD : t.hasDirectory D = true)
    (hlimit : exceeds t.pathLimit (cwd.join configName).bytes = false) :
    (t.nearestConfig? cwd).map t.locate =
        (t.firstConfig? (t.passed (t.start cwd) cwd.names)).map .ok ∧
      (Path.dotDot ∉ cwd.names →
        t.IsNearestConfig (t.start cwd).location D (t.nearestConfig? cwd)) ∧
      (cwd.IsPlain → t.IsNearestConfig [] D (t.nearestConfig? cwd)) := by
  have hopen : t.IsOpen ⟨D, 0⟩ := fun _ => hD
  obtain ⟨hfollowed, hsegments⟩ := locate_eq_ok_iff.mp hcwd
  have hwalk : t.walk (t.start cwd) cwd.names = .ok ⟨D, 0⟩ := by
    rw [Path.names_eq_filter, walk_filter (by simp [hsegments]), hsegments]
  have hrefusal : t.refusal? (cwd.join configName) = none :=
    refusal?_join_configName (refusal?_eq_none_iff.mp hfollowed).1 hlimit
  have hfound := map_locate_findUp? (Nat.le_succ _) hrefusal hwalk hopen
  rw [← nearestConfig?_eq_findUp?] at hfound
  have hnearest : Path.dotDot ∉ cwd.names →
      t.IsNearestConfig (t.start cwd).location D (t.nearestConfig? cwd) := by
    intro hdotDot
    have hnaming : ∀ n ∈ cwd.names, Path.IsNaming n := fun n hn => Path.isNaming_of_mem_names hn
    have hstart : t.start cwd = ⟨(t.start cwd).location, 0⟩ :=
      congrArg (Place.mk _) (removed_eq_zero_of_walk hnaming hdotDot hwalk rfl)
    rw [hstart] at hwalk hfound
    have hlocation := walk_names_of_dotDot_notMem hnaming hdotDot hwalk
    rw [Place.mk.injEq] at hlocation
    rw [hlocation.1]
    exact isNearestConfig_of_firstConfig? hnaming hdotDot hwalk hfound
  refine ⟨hfound, hnearest, fun hplain => ?_⟩
  have hstart : t.start cwd = .root := if_pos hplain.isAbsolute
  have htop := hnearest hplain.dotDot_notMem
  rwa [hstart] at htop

/-- A config in `/p` and one in `/p/a/b`; the working directory is `/p/a`, which has none. -/
def configsAround : FileTree where
  contents :=
    [(Text.encode "p".toList, .directory
        [(Text.encode "tsconfig.json".toList, .file []),
         (Text.encode "a".toList, .directory
           [(Text.encode "b".toList, .directory
             [(Text.encode "tsconfig.json".toList, .file [])])])])]
  workingDirectory := ⟨["p", "a"].map fun s => Text.encode s.toList, 0⟩

/-- Under an absolute path without `..`, however it is spelled, the config in `/p` is found. -/
theorem nearestConfig?_eq_passed_spelled :
    let t := configsAround
    let cwd := Path.ofText "//p/./a/"
    let D := t.workingDirectory.location
    (t.locate cwd = .ok ⟨D, 0⟩ ∧ t.hasDirectory D = true ∧
        exceeds t.pathLimit (cwd.join configName).bytes = false ∧ cwd.IsPlain) ∧
      t.IsNearestConfig [] D (some (.ofText "//p/tsconfig.json")) := by
  intro t cwd D
  have hcwd : t.locate cwd = .ok ⟨D, 0⟩ := by decide +kernel
  have hD : t.hasDirectory D = true := by decide +kernel
  have hlimit : exceeds t.pathLimit (cwd.join configName).bytes = false := by decide +kernel
  have hplain : cwd.IsPlain := ⟨by decide +kernel, by decide +kernel⟩
  have hfound : t.nearestConfig? cwd = some (.ofText "//p/tsconfig.json") := by decide +kernel
  have hnearest := (nearestConfig?_eq_passed hcwd hD hlimit).2.2 hplain
  exact ⟨⟨hcwd, hD, hlimit, hplain⟩, hfound ▸ hnearest⟩

/-- The same directory under two other spellings: from `.` the config in `/p` is not found, and from
`/p/a/b/..` one is found that is neither in the directory nor above it. -/
theorem nearestConfig?_not_nearest :
    let t := configsAround
    let D := t.workingDirectory.location
    ∀ cwd ∈ [Path.ofText ".", Path.ofText "/p/a/b/.."],
      t.locate cwd = .ok ⟨D, 0⟩ ∧ t.hasDirectory D = true ∧
        ¬t.IsNearestConfig [] D (t.nearestConfig? cwd) := by
  intro t D
  have hD : t.hasDirectory D = true := by decide +kernel
  simp only [List.forall_mem_cons, List.not_mem_nil, false_implies, implies_true, and_true]
  refine ⟨⟨by decide +kernel, hD, ?_⟩, by decide +kernel, hD, ?_⟩
  · have hnone : t.nearestConfig? (.ofText ".") = none := by decide +kernel
    have hholds : t.holdsConfig ⟨[Text.encode "p".toList], 0⟩ = true := by decide +kernel
    rw [hnone]
    intro hnearest
    have habsent := hnearest [Text.encode "p".toList] List.nil_prefix (by decide +kernel)
    cases hholds.symm.trans habsent
  · have hsome : t.nearestConfig? (.ofText "/p/a/b/..") =
        some (.ofText "/p/a/b/tsconfig.json") := by decide +kernel
    have hlocate : t.locate (.ofText "/p/a/b/tsconfig.json") =
        .ok ⟨D ++ [Text.encode "b".toList] ++ [configName.bytes], 0⟩ := by decide +kernel
    rw [hsome]
    rintro ⟨E, -, hE, -, -, hpath⟩
    rw [hlocate, Except.ok.injEq, Place.mk.injEq, List.append_left_inj] at hpath
    have hlength := hE.length_le
    rw [← hpath.1, List.length_append, List.length_singleton] at hlength
    omega

end ModuleMap.FileTree
