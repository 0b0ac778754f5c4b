import Mathlib.Data.Set.Finite.Lattice
import ModuleMap.Proofs.FileTree.Spelling
import ModuleMap.Proofs.Path.Plain

/-!
# The files of a tree

A tree has finitely many files, but a file can have infinitely many paths: where `a` is a directory,
`a/..` leads back to where it starts, any number of times.  An absolute path without `..` is
different.  It may still be spelled in many ways, but its names are those that lead to the file.

* `Node.finite_files`, `FileTree.finite_fileLocations`: there are finitely many files.
* `FileTree.SameFile`: paths that name one file.
* `FileTree.locate_of_isPlain`: what an absolute path without `..` names.
* `FileTree.SameFile.components_eq`: such paths name one file only if they have the same names.
-/

namespace ModuleMap

/-! ## Finitely many files -/

namespace Node

theorem size_lt_of_mem {es : List (Segment × Node)} {entry : Segment × Node} (h : entry ∈ es) :
    entry.2.size < (directory es).size := by
  have hle : entry.2.size ≤ sizeIn es := by
    induction es with
    | nil => cases h
    | cons first es ih =>
      rw [sizeIn]
      rcases List.mem_cons.mp h with rfl | h
      · omega
      · have hrest := ih h
        omega
  rw [size]
  omega

/-- The first name on the way to a file is that of an entry, and the others lead on from there. -/
theorem exists_mem_of_get?_eq_file {es : List (Segment × Node)} {l : Location} {bytes : List UInt8}
    (h : (directory es).get? l = some (file bytes)) :
    ∃ entry ∈ es, ∃ ss, l = entry.1 :: ss ∧ entry.2.get? ss = some (file bytes) := by
  rcases l with _ | ⟨s, ss⟩
  · cases h
  · rw [get?_cons, Option.bind_eq_some_iff] at h
    obtain ⟨n, hn, hget⟩ := h
    obtain ⟨before, after, rfl, -⟩ := List.lookup_eq_some_iff.mp hn
    exact ⟨(s, n), by simp, ss, rfl, hget⟩

/-- There are finitely many files at a node and below it. -/
theorem finite_files (n : Node) : {l | ∃ bytes, n.get? l = some (file bytes)}.Finite := by
  induction hsize : n.size using Nat.strong_induction_on generalizing n with
  | _ k ih =>
    cases n with
    | file content =>
      refine (Set.finite_singleton []).subset ?_
      rintro l ⟨bytes, h⟩
      rcases l with _ | ⟨s, ss⟩
      · rfl
      · cases h
    | directory es =>
      have hbelow : ∀ entry ∈ {entry | entry ∈ es},
          ((entry.1 :: ·) '' {l | ∃ bytes, entry.2.get? l = some (file bytes)}).Finite := by
        intro entry hentry
        have hlt : entry.2.size < k := hsize ▸ size_lt_of_mem hentry
        exact (ih _ hlt entry.2 rfl).image _
      refine ((List.finite_toSet es).biUnion hbelow).subset ?_
      rintro l ⟨bytes, h⟩
      obtain ⟨entry, hentry, ss, rfl, hget⟩ := exists_mem_of_get?_eq_file h
      exact Set.mem_biUnion hentry ⟨ss, ⟨bytes, hget⟩, rfl⟩

end Node

namespace FileTree

variable {t : FileTree}

/-- The locations of the files of a tree. -/
def fileLocations (t : FileTree) : Set Location :=
  {l | ∃ bytes, t.node? l = some (.file bytes)}

theorem finite_fileLocations (t : FileTree) : t.fileLocations.Finite :=
  t.root.finite_files

/-! ## Paths of one file -/

/-- Two paths that name one place, and there a file. -/
def SameFile (t : FileTree) (p q : Path) : Prop :=
  ∃ place bytes,
    t.locate p = .ok place ∧ t.locate q = .ok place ∧ t.nodeIn? place = some (.file bytes)

/-- A path under which something can be read names a file. -/
theorem sameFile_self_of_readLossy {p : Path} {text : List Char} (h : t.readLossy p = .ok text) :
    t.SameFile p p := by
  unfold readLossy readBytes at h
  rw [nodeAt_eq] at h
  cases hplace : t.locate p with
  | error e => simp [hplace, Except.bind] at h
  | ok place =>
    rw [hplace] at h
    simp only [Except.bind, nodeOf] at h
    cases hnode : t.nodeIn? place with
    | none => simp [hnode] at h
    | some n =>
      cases n with
      | file bytes => exact ⟨place, bytes, hplace, hplace, hnode⟩
      | directory es => simp [hnode] at h

/-- Without `..` a segment leads nowhere but into a directory. -/
theorem step_of_ne_dotDot {loc : Location} {s : Segment} {place : Place} (hs : s ≠ Path.dotDot)
    (h : t.step ⟨loc, 0⟩ s = .ok place) :
    place = ⟨loc ++ [s].filter (!Path.isVoid ·), 0⟩ := by
  cases hvoid : Path.isVoid s with
  | true =>
    rcases step_of_isVoid hvoid ⟨loc, 0⟩ with hstep | hstep
    · cases hstep.symm.trans h
      simp [hvoid]
    · cases hstep.symm.trans h
  | false =>
    have hconcat : [s].filter (!Path.isVoid ·) = [s] := by simp [hvoid]
    rw [hconcat]
    simp only [step, enter, hvoid, if_neg hs, Bool.false_eq_true, if_false] at h
    split_ifs at h <;> cases h
    rfl

/-- Segments without `..` lead to the location of their names. -/
theorem walk_of_dotDot_notMem {ss : List Segment} {loc : Location} {place : Place}
    (hss : Path.dotDot ∉ ss) (h : t.walk ⟨loc, 0⟩ ss = .ok place) :
    place = ⟨loc ++ ss.filter (!Path.isVoid ·), 0⟩ := by
  induction ss generalizing loc with
  | nil =>
    cases h
    simp
  | cons s ss ih =>
    rw [List.mem_cons, not_or] at hss
    rw [walk_cons] at h
    cases hstep : t.step ⟨loc, 0⟩ s with
    | error e =>
      rw [hstep] at h
      cases h
    | ok next =>
      rw [hstep, step_of_ne_dotDot (Ne.symm hss.1) hstep] at h
      rw [ih hss.2 h, List.append_assoc, ← List.filter_append, List.singleton_append]

/-- An absolute path without `..` names the location of its names, if anything. -/
theorem locate_of_isPlain {p : Path} (hp : p.IsPlain) {place : Place}
    (h : t.locate p = .ok place) : place = ⟨p.names, 0⟩ := by
  have hstart : t.start p = .root := if_pos hp.isAbsolute
  have hsegments : Path.dotDot ∉ p.segments := by
    intro hmem
    refine hp.dotDot_notMem ?_
    rw [Path.names_eq_filter, List.mem_filter]
    exact ⟨hmem, by decide⟩
  have hwalk := (locate_eq_ok_iff.mp h).2
  rw [hstart] at hwalk
  rw [walk_of_dotDot_notMem hsegments hwalk, Path.names_eq_filter, List.nil_append]

/-- The names of an absolute path without `..` lead to a file if the path does. -/
theorem names_mem_fileLocations {p : Path} (hp : p.IsPlain) (h : t.SameFile p p) :
    p.names ∈ t.fileLocations := by
  obtain ⟨place, bytes, hplace, -, hnode⟩ := h
  obtain rfl := locate_of_isPlain hp hplace
  exact ⟨bytes, hnode⟩

/-- Absolute paths without `..` that name one file have the same components. -/
theorem SameFile.components_eq {p q : Path} (hp : p.IsPlain) (hq : q.IsPlain)
    (h : t.SameFile p q) : p.components = q.components := by
  obtain ⟨place, -, hplace, hplace', -⟩ := h
  have hplaces := (locate_of_isPlain hp hplace).symm.trans (locate_of_isPlain hq hplace')
  have hnames : p.names = q.names := congrArg Place.location hplaces
  unfold Path.components
  rw [hnames, Path.anchor_eq_root_iff.mpr hp.isAbsolute, Path.anchor_eq_root_iff.mpr hq.isAbsolute]

/-- Resolved paths are absolute and have no `..`. -/
theorem isPlain_of_resolve {p path : Path} (h : t.resolve p = .ok path) : path.IsPlain := by
  obtain ⟨q, hq, rfl⟩ := exists_normalize_of_resolve h
  exact Path.isPlain_normalize hq

end FileTree

end ModuleMap
