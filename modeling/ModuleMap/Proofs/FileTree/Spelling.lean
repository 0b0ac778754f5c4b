import Mathlib.Tactic.SplitIfs
import ModuleMap.FileTree.Read
import ModuleMap.Proofs.Path.Rooted

/-!
# Following the names of a path

Doubled slashes, `.` and a slash at the end of a path can do no more than spoil it: they make the
path longer, and they ask for a directory where the names alone do not.  The shortest spelling of an
absolute path has the names alone.

* `Path.bytes_names_sublist`: the bytes of the shortest spelling.
* `FileTree.walk_filter`, `FileTree.walk_ofBody_root`: following the names alone.
* `FileTree.refusal?_eq_none_iff`, `FileTree.locate_eq_ok_iff`: when a path is followed, and when it
  leads to a place.
* `FileTree.isTrimmed_of_resolve`: how resolved paths are spelled.
-/

namespace ModuleMap

/-- The shortest spelling has no bytes that others do not have. -/
theorem Path.bytes_names_sublist {p : Path} (hp : p.anchor = .root) :
    List.Sublist (ofBody .root p.names).bytes p.bytes := by
  have hspelled : p.bytes = (ofBody .root p.body).bytes := by rw [ofBody_root_body hp]
  by_cases hnames : p.names = []
  · obtain ⟨bs, rfl⟩ := exists_eq_cons_slash hp
    rw [hnames]
    exact List.Sublist.cons_cons _ (List.nil_sublist bs)
  · have hbody : p.body ≠ [] := by
      intro hnil
      exact hnames (by rw [names, hnil, List.filter_nil])
    rw [hspelled, bytes_ofBody_root hnames, bytes_ofBody_root hbody]
    exact List.filter_sublist.flatMap _

namespace FileTree

variable {t : FileTree}

/-- A void segment leads nowhere else, but it needs a directory to start from. -/
theorem step_of_isVoid {s : Segment} (hs : Path.isVoid s = true) (place : Place) :
    t.step place s = .ok place ∨ t.step place s = .error .notDirectory := by
  obtain ⟨loc, removed⟩ := place
  unfold step enter
  cases removed with
  | zero => cases t.hasDirectory loc <;> simp [hs, Except.map]
  | succ n => simp [hs]

/-- The names alone lead where all the segments lead. -/
theorem walk_filter {ss : List Segment} {place : Place}
    (h : t.walk place ss ≠ .error .notDirectory) :
    t.walk place (ss.filter (!Path.isVoid ·)) = t.walk place ss := by
  induction ss generalizing place with
  | nil => rfl
  | cons s ss ih =>
    rw [walk_cons] at h
    cases hs : Path.isVoid s with
    | true =>
      rw [List.filter_cons_of_neg (by simp [hs]), walk_cons]
      rcases step_of_isVoid hs place with hstep | hstep
      · rw [hstep] at h ⊢
        exact ih h
      · rw [hstep] at h
        exact absurd rfl h
    | false =>
      rw [List.filter_cons_of_pos (by simp [hs]), walk_cons, walk_cons]
      cases hstep : t.step place s with
      | error e => rfl
      | ok next =>
        rw [hstep] at h
        exact ih h

/-- From the root the body of an absolute path leads where the path leads. -/
theorem walk_segments {p : Path} (hp : p.anchor = .root) :
    t.walk .root p.segments = t.walk .root p.body := by
  rw [Path.segments_eq_cons_body hp]
  rfl

/-- Following the shortest spelling of an absolute path is following its names. -/
theorem walk_ofBody_root {ns : List Segment} (h : ∀ s ∈ ns, Path.IsNaming s) :
    t.walk .root (Path.ofBody .root ns).segments = t.walk .root ns := by
  rcases ns with _ | ⟨n, ns⟩
  · rfl
  · rw [walk_segments rfl, Path.body_ofBody_root (fun s hs => (h s hs).1) (List.cons_ne_nil _ _)]

/-- A path that is not too long does not become so when it gets shorter. -/
theorem exceeds_of_length_le {limit : Option Nat} {bytes bytes' : List UInt8}
    (hle : bytes'.length ≤ bytes.length) (h : exceeds limit bytes = false) :
    exceeds limit bytes' = false := by
  unfold exceeds at h ⊢
  cases limit with
  | none => rfl
  | some n =>
    simp only [Option.any_some, decide_eq_false_iff_not] at h ⊢
    omega

theorem refusal?_eq_none_iff {p : Path} :
    t.refusal? p = none ↔
      0 ∉ p.bytes ∧ p.bytes ≠ [] ∧ exceeds t.pathLimit p.bytes = false := by
  unfold refusal?
  split_ifs <;> simp_all

theorem locate_eq_ok_iff {p : Path} {place : Place} :
    t.locate p = .ok place ↔
      t.refusal? p = none ∧ t.walk (t.start p) p.segments = .ok place := by
  unfold locate
  cases t.refusal? p <;> simp

/-- A path that is refused for naming nothing is empty. -/
theorem bytes_eq_nil_of_refusal? {p : Path} (h : t.refusal? p = some .notFound) :
    p.bytes = [] := by
  unfold refusal? at h
  split_ifs at h with hnul hnil
  · cases h
  · exact hnil
  · cases h

/-- Resolving gives the normal form of an absolute path. -/
theorem exists_normalize_of_resolve {p path : Path} (h : t.resolve p = .ok path) :
    ∃ q : Path, q.isAbsolute = true ∧ path = q.normalize := by
  unfold resolve at h
  split_ifs at h with _ habsolute
  · cases h
    exact ⟨p, habsolute, rfl⟩
  · unfold cwd? at h
    split_ifs at h
    cases h
    exact ⟨_, Path.isAbsolute_join rfl p, rfl⟩

/-- It has nothing void but a slash at its end. -/
theorem isTrimmed_of_resolve {p path : Path} (h : t.resolve p = .ok path) : path.IsTrimmed := by
  obtain ⟨q, hq, rfl⟩ := exists_normalize_of_resolve h
  exact (Path.isTrimmed_normalize hq).1

end FileTree

end ModuleMap
