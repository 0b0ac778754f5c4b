import ModuleMap.Proofs.FileTree.Alike
import ModuleMap.Proofs.FileTree.Passed
import ModuleMap.Proofs.Path.Joining
import ModuleMap.Proofs.Path.Text

/-!
# One file more

A new file in a directory that is there is seen under the paths that lead to it.  These led nowhere
before.  A path that leads on from the new file still leads nowhere, but for another reason: there
is something now that is no directory.  Under all other paths nothing changes.

Names that can be followed lead where their normal form says, since no name leads to anything but
what has this name.  So the new file is at the location that is its path in normal form.

* `FileTree.Gains`: trees one of which has one file more.
* `FileTree.Gains.step_cases`, `FileTree.Gains.walk_cases`: names followed in both.
* `FileTree.AnswersAlike`, `FileTree.Gains.answersAlike`: what is asked under other paths.
* `FileTree.exists_gains_of_writeFile`: a file written where nothing was.
* `FileTree.eq_settle_of_walk`, `FileTree.resolve_eq_pathOf`,
  `FileTree.exists_locate_of_canonical?`: the paths of the location that names lead to.
-/

namespace ModuleMap.FileTree

variable {t u : FileTree} {loc : Location} {p : Path}

/-! ## Trees with one file more -/

/-- The second tree has a file where the first has nothing, and is like it anywhere else. -/
structure Gains (t u : FileTree) (loc : Location) : Prop where
  absent : t.node? loc = none
  present : ∃ bytes, u.node? loc = some (.file bytes)
  node? : ∀ l, l ≠ loc → Node.Alike Eq (t.node? l) (u.node? l)
  workingDirectory : t.workingDirectory = u.workingDirectory
  pathLimit : t.pathLimit = u.pathLimit
  nameLimit : t.nameLimit = u.nameLimit

/-- What two trees answer at a path is the same, but for why there may be no answer. -/
structure AnswersAlike (t u : FileTree) (p : Path) : Prop where
  isFile : t.isFile p = u.isFile p
  isDirectory : t.isDirectory p = u.isDirectory p
  readLossy : ∀ text, t.readLossy p = .ok text ↔ u.readLossy p = .ok text

namespace Gains

variable (h : Gains t u loc)
include h

theorem hasDirectory_eq (l : Location) : t.hasDirectory l = u.hasDirectory l := by
  unfold hasDirectory
  by_cases hl : l = loc
  · obtain ⟨bytes, hfile⟩ := h.present
    rw [hl, h.absent, hfile]
    rfl
  · exact (h.node? l hl).any_isDirectory_eq

/-- A name that leads to the new file leads nowhere without it. -/
theorem step_cases (place : Place) (s : Segment) :
    t.step place s = u.step place s ∨
      t.step place s = .error .notFound ∧ u.step place s = .ok ⟨loc, 0⟩ := by
  obtain ⟨l, removed⟩ := place
  cases removed with
  | succ n => exact Or.inl rfl
  | zero =>
    simp only [step, enter, h.hasDirectory_eq l, h.nameLimit]
    by_cases hl : l ++ [s] = loc
    · obtain ⟨bytes, hfile⟩ := h.present
      rw [hl, h.absent, hfile]
      simp only [Option.isSome_none, Option.isSome_some, Bool.false_eq_true, if_true, if_false]
      split_ifs
      · exact Or.inl rfl
      · exact Or.inl rfl
      · exact Or.inl rfl
      · exact Or.inl rfl
      · exact Or.inr ⟨rfl, rfl⟩
    · rw [(h.node? _ hl).isSome_eq]
      exact Or.inl rfl

/-- No names lead on from the new file. -/
theorem walk_present (ss : List Segment) :
    u.walk ⟨loc, 0⟩ ss = .ok ⟨loc, 0⟩ ∨ u.walk ⟨loc, 0⟩ ss = .error .notDirectory := by
  rcases ss with _ | ⟨s, ss⟩
  · exact Or.inl rfl
  · obtain ⟨bytes, hfile⟩ := h.present
    have hstep : u.step ⟨loc, 0⟩ s = .error .notDirectory := by
      simp only [step, enter, hasDirectory, hfile]
      rfl
    refine Or.inr ?_
    rw [walk_cons, hstep]

/-- Names that lead to the new file lead nowhere without it, and so do those that would lead on from
there. -/
theorem walk_cases (place : Place) (ss : List Segment) :
    t.walk place ss = u.walk place ss ∨
      t.walk place ss = .error .notFound ∧
        ∃ before after, ss = before ++ after ∧ u.walk place before = .ok ⟨loc, 0⟩ := by
  induction ss generalizing place with
  | nil => exact Or.inl rfl
  | cons s ss ih =>
    rw [walk_cons, walk_cons]
    rcases h.step_cases place s with hstep | ⟨ht, hu⟩
    · rw [hstep]
      cases hnext : u.step place s with
      | error e => exact Or.inl rfl
      | ok next =>
        refine (ih next).imp_right fun ⟨ht, before, after, hsplit, hwalk⟩ => ?_
        refine ⟨ht, s :: before, after, by rw [hsplit, List.cons_append], ?_⟩
        rw [walk_cons, hnext]
        exact hwalk
    · rw [ht]
      refine Or.inr ⟨rfl, [s], ss, rfl, ?_⟩
      rw [walk_singleton, hu]

theorem refusal?_eq (p : Path) : t.refusal? p = u.refusal? p := by
  unfold refusal?
  rw [h.pathLimit]

theorem start_eq (p : Path) : t.start p = u.start p := by
  unfold start
  rw [h.workingDirectory]

theorem resolve_eq (p : Path) : u.resolve p = t.resolve p := by
  unfold resolve cwd?
  rw [h.workingDirectory]

/-- A path that leads to the new file leads nowhere without it, and so does one that would lead on
from there. -/
theorem locate_cases (p : Path) :
    t.locate p = u.locate p ∨
      t.locate p = .error .notFound ∧
        (u.locate p = .ok ⟨loc, 0⟩ ∨ u.locate p = .error .notDirectory) := by
  unfold locate
  rw [h.refusal?_eq, h.start_eq]
  cases u.refusal? p with
  | some e => exact Or.inl rfl
  | none =>
    refine (h.walk_cases _ _).imp_right fun ⟨ht, before, after, hsplit, hwalk⟩ => ⟨ht, ?_⟩
    simp only [hsplit, walk_append, hwalk]
    exact h.walk_present after

/-- Absolute paths that are no longer than the one of the new file lead as far as before, unless
they lead to the file itself. -/
theorem locate_ofBody_root_eq {ns : List Segment} (hns : ∀ s ∈ ns, Path.IsNaming s)
    (hdotDot : Path.dotDot ∉ ns) (hlength : ns.length ≤ loc.length)
    (hne : u.locate (.ofBody .root ns) ≠ .ok ⟨loc, 0⟩) :
    t.locate (.ofBody .root ns) = u.locate (.ofBody .root ns) := by
  unfold locate at hne ⊢
  rw [h.refusal?_eq]
  cases hrefusal : u.refusal? (.ofBody .root ns) with
  | some e => rfl
  | none =>
    rw [hrefusal] at hne
    change u.walk .root (Path.ofBody .root ns).segments ≠ _ at hne
    show t.walk .root (Path.ofBody .root ns).segments = u.walk .root (Path.ofBody .root ns).segments
    rw [walk_ofBody_root hns] at hne ⊢
    rw [walk_ofBody_root hns]
    refine (h.walk_cases .root ns).resolve_right ?_
    rintro ⟨-, before, after, rfl, hwalk⟩
    -- The names before are all that lead to the file, so there are none after them.
    have hbefore : before.filter (!Path.isVoid ·) = before := by
      refine List.filter_eq_self.mpr fun s hs => ?_
      simp [(hns s (List.mem_append_left _ hs)).2]
    have hloc := walk_of_dotDot_notMem (fun hmem => hdotDot (List.mem_append_left _ hmem)) hwalk
    rw [hbefore, List.nil_append] at hloc
    obtain rfl : loc = before := congrArg Place.location hloc
    rw [List.length_append] at hlength
    obtain rfl : after = [] := List.length_eq_zero_iff.mp (by omega)
    rw [List.append_nil] at hne
    exact hne hwalk

/-! ## Answers under other paths -/

theorem nodeIn?_alike {place : Place} (hplace : place ≠ ⟨loc, 0⟩) :
    Node.Alike Eq (t.nodeIn? place) (u.nodeIn? place) := by
  unfold nodeIn?
  split
  · next hremoved =>
    refine h.node? _ fun hloc => hplace ?_
    rw [← hloc, ← hremoved]
  · exact .directory

/-- What is at a path that leads as far as before is nothing, for the same reason, or else nodes
that are alike. -/
theorem nodeAt_of_locate_eq (hlocate : t.locate p = u.locate p)
    (hp : u.locate p ≠ .ok ⟨loc, 0⟩) :
    (∃ e, t.nodeAt p = .error e ∧ u.nodeAt p = .error e) ∨
      ∃ n n', t.nodeAt p = .ok n ∧ u.nodeAt p = .ok n' ∧ Node.Alike Eq (some n) (some n') := by
  rw [nodeAt_eq, nodeAt_eq, hlocate]
  cases hplace : u.locate p with
  | error e => exact Or.inl ⟨e, rfl, rfl⟩
  | ok place =>
    have halike := h.nodeIn?_alike fun heq => hp (heq ▸ hplace)
    simp only [Except.bind, nodeOf]
    generalize t.nodeIn? place = n at halike
    generalize u.nodeIn? place = n' at halike
    cases halike with
    | none => exact Or.inl ⟨_, rfl, rfl⟩
    | file heq => exact Or.inr ⟨_, _, rfl, rfl, .file heq⟩
    | directory => exact Or.inr ⟨_, _, rfl, rfl, .directory⟩

/-- What is at another path is nothing in both trees, or else nodes that are alike. -/
theorem nodeAt_cases (hp : u.locate p ≠ .ok ⟨loc, 0⟩) :
    (∃ e e', t.nodeAt p = .error e ∧ u.nodeAt p = .error e') ∨
      ∃ n n', t.nodeAt p = .ok n ∧ u.nodeAt p = .ok n' ∧ Node.Alike Eq (some n) (some n') := by
  rcases h.locate_cases p with hlocate | ⟨ht, hu | hu⟩
  · exact (h.nodeAt_of_locate_eq hlocate hp).imp_left fun ⟨e, ht, hu⟩ => ⟨e, e, ht, hu⟩
  · exact absurd hu hp
  · rw [nodeAt_eq, nodeAt_eq, ht, hu]
    exact Or.inl ⟨_, _, rfl, rfl⟩

/-- Under a path that does not lead to the new file nothing changes. -/
theorem answersAlike (hp : u.locate p ≠ .ok ⟨loc, 0⟩) : AnswersAlike t u p := by
  rcases h.nodeAt_cases hp with ⟨e, e', ht, hu⟩ | ⟨n, n', ht, hu, hn⟩
  · constructor <;> simp [isFile, isDirectory, readLossy, readBytes, ht, hu]
  · cases hn with
    | file heq =>
      subst heq
      constructor <;> simp [isFile, isDirectory, readLossy, readBytes, ht, hu]
    | directory => constructor <;> simp [isFile, isDirectory, readLossy, readBytes, ht, hu]

/-- If there is something under the path in both trees, or nothing for the same reason, then also
what is read is the same. -/
theorem readText_eq (hlocate : t.locate p = u.locate p) (hp : u.locate p ≠ .ok ⟨loc, 0⟩) :
    t.readText p = u.readText p := by
  unfold readText readBytes
  rcases h.nodeAt_of_locate_eq hlocate hp with ⟨e, ht, hu⟩ | ⟨n, n', ht, hu, hn⟩
  · rw [ht, hu]
  · rw [ht, hu]
    cases hn with
    | file heq => rw [heq]
    | directory => rfl

end Gains

/-! ## Writing a file -/

/-- A path that does not end with a slash ends with the segment that is set apart. -/
theorem segments_of_target? {way : List Segment} {name : Segment}
    (h : p.target? = some (way, name)) (hslash : p.endsWithSlash = false) :
    p.segments = way ++ [name] ∧ name ≠ [] := by
  unfold Path.target? at h
  rcases List.eq_nil_or_concat p.segments with hnil | ⟨init, last, hsegments⟩
  · exact absurd hnil (List.splitOn_ne_nil _ _)
  rw [List.concat_eq_append] at hsegments
  have hlast : last ≠ [] := by
    rintro rfl
    rcases eq_or_ne init [] with rfl | hinit
    · rw [hsegments] at h
      cases h
    · have hbytes : p.bytes = (Path.ofSegments (init ++ [[]])).bytes := by
        rw [← hsegments]
        exact (List.intercalate_splitOn slash).symm
      rw [Path.bytes_ofSegments_concat hinit] at hbytes
      rw [Path.endsWithSlash, hbytes, List.getLast?_concat] at hslash
      cases hslash
  rw [hsegments, List.reverse_append, List.reverse_singleton, List.singleton_append,
    List.dropWhile_cons_of_neg (by simpa using hlast)] at h
  cases h
  exact ⟨by rw [hsegments, List.reverse_reverse], hlast⟩

/-- What it takes for the last name of a path to stand for a location. -/
theorem spot?_eq_some {loc : Location} (h : t.spot? p = .ok (some loc)) :
    ∃ way name dir, p.target? = some (way, name) ∧ t.refusal? p = none ∧
      t.walk (t.start p) way = .ok ⟨dir, 0⟩ ∧ t.hasDirectory dir = true ∧ name ≠ [dot] ∧
      name ≠ Path.dotDot ∧ exceeds t.nameLimit name = false ∧ loc = dir ++ [name] := by
  unfold spot? at h
  cases hrefusal : t.refusal? p with
  | some e => simp [hrefusal] at h
  | none =>
    rcases htarget : p.target? with _ | ⟨way, name⟩
    · simp [hrefusal, htarget] at h
    · simp only [hrefusal, htarget, travel_eq] at h
      cases hwalk : t.walk (t.start p) (way ++ [[]]) with
      | error e => simp [hwalk] at h
      | ok place =>
        simp only [hwalk] at h
        split_ifs at h with hname hremoved hlimit
        · cases h
        cases h
        -- The empty segment after the way asks for a directory.
        obtain ⟨last, hway, hstep⟩ := exists_of_walk_concat hwalk
        have hopen := isOpen_of_step hstep
        obtain rfl : place = last := Except.ok.inj (hstep.symm.trans (hopen.step_of_isVoid rfl))
        obtain ⟨dir, removed⟩ := place
        obtain rfl : removed = 0 := not_ne_iff.mp hremoved
        rw [not_or] at hname
        exact ⟨way, name, dir, rfl, rfl, hway, hopen rfl, hname.1, hname.2,
          Bool.eq_false_iff.mpr hlimit, rfl⟩

/-- All that is on the way to a directory are directories. -/
theorem hasDirectory_of_append {l r : Location} (h : t.hasDirectory (l ++ r) = true) :
    t.hasDirectory l = true := by
  unfold hasDirectory node? at h ⊢
  rw [Node.get?_append] at h
  rcases hnode : t.root.get? l with _ | (bytes | es) <;> rw [hnode] at h
  · cases h
  · rcases r with _ | ⟨s, r⟩ <;> cases h
  · rfl

/-- A file put where nothing is, in a directory, is one file more. -/
theorem gains_put {dir : Location} {name : Segment} (hdir : t.hasDirectory dir = true)
    (habsent : t.node? (dir ++ [name]) = none) (bytes : List UInt8) :
    Gains t (t.put (dir ++ [name]) (.file bytes)) (dir ++ [name]) := by
  have hroot := t.root_put (List.concat_ne_nil name dir) (.file bytes)
  refine ⟨habsent, ⟨bytes, ?_⟩, fun l hl => ?_, rfl, rfl, rfl⟩
  · have hget := Node.get?_set_append (.file bytes) (dir ++ [name]) [] t.root
    rwa [List.append_nil, ← hroot] at hget
  · unfold node?
    rw [hroot]
    by_cases hbelow : dir ++ [name] <+: l
    · -- There was nothing below the location, and there is nothing below a file.
      obtain ⟨r, rfl⟩ := hbelow
      rw [Node.get?_append, ← node?, habsent, Node.get?_set_append]
      rcases r with _ | ⟨s, r⟩
      · exact absurd (List.append_nil _) hl
      · exact .none
    by_cases habove : l <+: dir ++ [name]
    · rcases List.prefix_concat_iff.mp habove with rfl | hprefix
      · exact absurd rfl hl
      obtain ⟨r, rfl⟩ := hprefix
      have hdirectory := hasDirectory_of_append hdir
      unfold hasDirectory node? at hdirectory
      obtain ⟨es, hes⟩ : ∃ es, (Node.set (.file bytes) (l ++ r ++ [name]) t.root).get? l =
          some (.directory es) := by
        rw [List.append_assoc]
        obtain ⟨s, ss, hss⟩ := List.exists_cons_of_ne_nil (List.concat_ne_nil name r)
        rw [hss]
        exact Node.exists_get?_set_eq_directory _ l s ss t.root
      rw [hes]
      rcases hnode : t.root.get? l with _ | (bytes' | es')
      · rw [hnode] at hdirectory
        cases hdirectory
      · rw [hnode] at hdirectory
        cases hdirectory
      · exact .directory
    · rw [Node.get?_set_of_not_prefix hbelow habove]
      exact Node.Alike.refl (fun _ => rfl) _

/-- A path whose last name is looked up in the directory that the others lead to. -/
theorem locate_eq_of_walk {way : List Segment} {name : Segment} {dir : Location}
    (hrefusal : t.refusal? p = none) (hsegments : p.segments = way ++ [name])
    (hway : t.walk (t.start p) way = .ok ⟨dir, 0⟩) (hdir : t.hasDirectory dir = true)
    (hvoid : Path.isVoid name = false) (hdotDot : name ≠ Path.dotDot)
    (hlimit : exceeds t.nameLimit name = false) :
    t.locate p =
      if (t.node? (dir ++ [name])).isSome then .ok ⟨dir ++ [name], 0⟩ else .error .notFound := by
  rw [locate, hrefusal, hsegments]
  simp only [walk_append, hway, Except.bind, walk_singleton, step, enter, hdir, hvoid, hdotDot,
    hlimit, Bool.not_true, Bool.false_eq_true, if_false]
  split <;> rfl

/-- A file that is written where nothing was is one file more. -/
theorem exists_gains_of_writeFile {bytes : List UInt8} (hwrite : t.writeFile p bytes = .ok u)
    (habsent : t.nodeAt p = .error .notFound) :
    ∃ dir name, Gains t u (dir ++ [name]) ∧ t.locate p = .error .notFound ∧
      u.locate p = .ok ⟨dir ++ [name], 0⟩ ∧ p.endsWithSlash = false ∧ p.fileName? = some name := by
  unfold writeFile at hwrite
  rcases hspot : t.spot? p with e | (_ | loc)
  · simp [hspot] at hwrite
  · simp [hspot] at hwrite
  simp only [hspot] at hwrite
  split_ifs at hwrite with hoccupied
  cases hwrite
  rw [Bool.or_eq_true, not_or, Bool.not_eq_true] at hoccupied
  obtain ⟨way, name, dir, htarget, hrefusal, hway, hdir, hdot, hdotDot, hlimit, rfl⟩ :=
    spot?_eq_some hspot
  obtain ⟨hsegments, hname⟩ := segments_of_target? htarget hoccupied.1
  have hvoid : Path.isVoid name = false := by simp [Path.isVoid, hname, hdot]
  have hlocate := locate_eq_of_walk hrefusal hsegments hway hdir hvoid hdotDot hlimit
  have hnothing : t.node? (dir ++ [name]) = none := by
    cases hnode : t.node? (dir ++ [name]) with
    | none => rfl
    | some n =>
      rw [nodeAt_eq, hlocate, hnode] at habsent
      simp [Except.bind, nodeOf, nodeIn?, hnode] at habsent
  have hgains := gains_put hdir hnothing bytes
  obtain ⟨bytes', hfile⟩ := hgains.present
  refine ⟨dir, name, hgains, ?_, ?_, hoccupied.1, ?_⟩
  · rw [hlocate, hnothing]
    rfl
  · have hsame := (hgains.walk_cases (t.start p) way).resolve_right fun hlost => by
      rw [hway] at hlost
      cases hlost.1
    have hafter := locate_eq_of_walk (t := t.put (dir ++ [name]) (.file bytes)) hrefusal hsegments
      (hsame.symm.trans hway) (hgains.hasDirectory_eq dir ▸ hdir) hvoid hdotDot hlimit
    rw [hafter, hfile]
    rfl
  · have hnames : p.names = way.filter (!Path.isVoid ·) ++ [name] := by
      rw [Path.names_eq_filter, hsegments, List.filter_append]
      simp [hvoid]
    rw [Path.fileName?, hnames, List.getLast?_concat]
    simp [hdotDot]

/-! ## The paths of a location -/

/-- A `..` takes back the name before it, if there is one. -/
theorem settle_append_dotDot {l : Location} (hl : Path.dotDot ∉ l) (rest : List Segment) :
    Path.settle true (l ++ Path.dotDot :: rest) = Path.settle true (l.dropLast ++ rest) := by
  have hpush : Path.push true l.reverse Path.dotDot = l.dropLast.reverse := by
    rcases List.eq_nil_or_concat l with rfl | ⟨init, last, rfl⟩
    · rfl
    · rw [List.concat_eq_append, List.mem_append, not_or, List.mem_singleton] at hl
      rw [List.concat_eq_append, List.dropLast_concat, List.reverse_append]
      simp [Path.push, Ne.symm hl.2]
  have hinit : Path.dotDot ∉ l.dropLast := fun hmem => hl (List.dropLast_subset l hmem)
  unfold Path.settle
  rw [List.foldl_append, List.foldl_append, List.foldl_cons,
    Path.foldl_push_of_dotDot_notMem [] hl, Path.foldl_push_of_dotDot_notMem [] hinit,
    List.append_nil, List.append_nil, hpush]

/-- Names that can be followed lead where their normal form says. -/
theorem eq_settle_of_walk {ss : List Segment} {l : Location} (hl : Path.dotDot ∉ l)
    (hwalk : t.walk ⟨l, 0⟩ ss = .ok ⟨loc, 0⟩) :
    loc = Path.settle true (l ++ ss.filter (!Path.isVoid ·)) := by
  induction ss generalizing l with
  | nil =>
    cases hwalk
    rw [List.filter_nil, List.append_nil, Path.settle_of_dotDot_notMem hl]
  | cons s ss ih =>
    rw [walk_cons] at hwalk
    cases hstep : t.step ⟨l, 0⟩ s with
    | error e =>
      rw [hstep] at hwalk
      cases hwalk
    | ok next =>
      rw [hstep] at hwalk
      by_cases hs : s = Path.dotDot
      · subst hs
        have hnext : next = ⟨l.dropLast, 0⟩ := by
          have hvoid : Path.isVoid Path.dotDot = false := rfl
          simp only [step, enter, hvoid, Bool.false_eq_true, if_false, if_true] at hstep
          split_ifs at hstep
          · cases hstep
          · cases hstep
            rfl
        subst hnext
        rw [List.filter_cons_of_pos (by decide), settle_append_dotDot hl]
        exact ih (fun hmem => hl (List.dropLast_subset l hmem)) hwalk
      · rw [step_of_ne_dotDot hs hstep] at hwalk
        have hname : Path.dotDot ∉ l ++ [s].filter (!Path.isVoid ·) := by
          rw [List.mem_append, not_or]
          refine ⟨hl, fun hmem => hs ?_⟩
          exact (List.mem_singleton.mp (List.mem_filter.mp hmem).1).symm
        rw [ih hname hwalk, List.append_assoc, ← List.filter_append, List.singleton_append]

/-- The names on the way to the working directory are such as a directory can have. -/
def IsWellNamed (t : FileTree) : Prop :=
  ∀ n ∈ t.workingDirectory.location, Path.IsNaming n ∧ n ≠ Path.dotDot

/-- A path that leads to a location without asking for a directory has the path of that as its
normal form. -/
theorem resolve_eq_pathOf (hp : t.locate p = .ok ⟨loc, 0⟩) (hslash : p.endsWithSlash = false)
    (hcwd : p.isAbsolute = true ∨ t.IsWellNamed) {q : Path} (hq : t.resolve p = .ok q) :
    q = pathOf loc ∧ ∀ n ∈ loc, Path.IsNaming n ∧ n ≠ Path.dotDot := by
  obtain ⟨hrefusal, hwalk⟩ := locate_eq_ok_iff.mp hp
  obtain ⟨-, hne, -⟩ := refusal?_eq_none_iff.mp hrefusal
  -- The names before those of the path are none, or those of the working directory.
  obtain ⟨l, hl, hwalk, rfl⟩ : ∃ l, (∀ n ∈ l, Path.IsNaming n ∧ n ≠ Path.dotDot) ∧
      t.walk ⟨l, 0⟩ p.segments = .ok ⟨loc, 0⟩ ∧
      q = pathOf (Path.settle true (l ++ p.names)) := by
    unfold resolve at hq
    unfold start at hwalk
    rw [if_neg hne] at hq
    split_ifs at hq with habsolute
    · cases hq
      rw [if_pos habsolute] at hwalk
      refine ⟨[], List.forall_mem_nil _, hwalk, ?_⟩
      rw [Path.normalize_eq habsolute, hslash]
      rfl
    · rw [if_neg habsolute] at hwalk
      unfold cwd? at hq
      split_ifs at hq with hremoved
      cases hq
      have hrelative : p.isAbsolute = false := Bool.eq_false_iff.mpr habsolute
      have hnames := hcwd.resolve_left habsolute
      have hplace : t.workingDirectory = ⟨t.workingDirectory.location, 0⟩ := by
        rw [← hremoved]
      rw [hplace] at hwalk
      refine ⟨_, hnames, hwalk, ?_⟩
      rw [Path.normalize_eq (Path.isAbsolute_join rfl p), Path.endsWithSlash_join _ hne hrelative,
        hslash, Path.names_join _ hrelative, pathOf,
        Path.names_ofBody_root fun n hn => (hnames n hn).1]
      rfl
  have hloc := eq_settle_of_walk (fun hmem => (hl _ hmem).2 rfl) hwalk
  rw [← Path.names_eq_filter] at hloc
  refine ⟨by rw [← hloc], fun n hn => ?_⟩
  obtain ⟨hmem, hdotDot⟩ := Path.mem_of_mem_settle (hloc ▸ hn)
  rcases List.mem_append.mp hmem with hmem | hmem
  · exact hl n hmem
  · exact ⟨Path.isNaming_of_mem_names hmem, hdotDot⟩

/-- An absolute path has its normal form whatever the working directory is. -/
theorem resolve_of_isAbsolute (t : FileTree) (hp : p.isAbsolute = true) :
    t.resolve p = .ok p.normalize := by
  have hne : p.bytes ≠ [] := by
    intro hnil
    rw [Path.isAbsolute, hnil] at hp
    cases hp
  rw [resolve, if_neg hne, if_pos hp]

/-- A path has a normal form if it is absolute or the working directory has a path. -/
theorem exists_resolve_eq_ok (hne : p.bytes ≠ []) (hstart : p.isAbsolute = true ∨ t.cwd? ≠ none) :
    ∃ path, t.resolve p = .ok path := by
  unfold resolve
  rw [if_neg hne]
  split_ifs with habsolute
  · exact ⟨_, rfl⟩
  · obtain ⟨d, hd⟩ := Option.ne_none_iff_exists'.mp (hstart.resolve_left habsolute)
    rw [hd]
    exact ⟨_, rfl⟩

/-- The path of a location is in normal form. -/
theorem resolve_pathOf (t : FileTree) (hne : loc ≠ [])
    (hloc : ∀ n ∈ loc, Path.IsNaming n ∧ n ≠ Path.dotDot) :
    t.resolve (pathOf loc) = .ok (pathOf loc) := by
  have hnormal : (pathOf loc).normalize = pathOf loc :=
    Path.normalize_ofBody_root (fun n hn => (hloc n hn).1) hne fun hmem => (hloc _ hmem).2 rfl
  rw [resolve_of_isAbsolute t rfl, hnormal]

/-- A path that has a canonical form leads to the location that this spells. -/
theorem exists_locate_of_canonical? {q : Path} (hrefusal : t.refusal? p = none)
    (h : t.canonical? p = some q) :
    ∃ l, t.locate p = .ok ⟨l, 0⟩ ∧ q = pathOf l ∧ (p.isAbsolute = true ∨ t.cwd? ≠ none) := by
  unfold canonical? at h
  split_ifs at h with hbytes hcwd
  obtain ⟨l, hreach, rfl⟩ := Option.map_eq_some_iff.mp h
  have hstart : p.isAbsolute = true ∨ t.cwd? ≠ none := by
    rw [not_and_or, Bool.not_eq_false] at hcwd
    exact hcwd
  have hplace : t.start p = ⟨(t.start p).location, 0⟩ := by
    unfold start
    split_ifs with habsolute
    · rfl
    · have hwd := hstart.resolve_left habsolute
      unfold cwd? at hwd
      split_ifs at hwd with hremoved
      · rw [← hremoved]
      · exact absurd rfl hwd
  refine ⟨l, locate_eq_ok_iff.mpr ⟨hrefusal, ?_⟩, rfl, hstart⟩
  rw [hplace]
  exact walk_of_reach? hreach

end ModuleMap.FileTree
