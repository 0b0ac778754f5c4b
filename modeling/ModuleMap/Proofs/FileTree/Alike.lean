import ModuleMap.FileTree.Edit
import ModuleMap.Tsconfig.Extends

/-!
# Trees that differ in what their files hold

Where names lead does not depend on what is in the files.  So trees with the same directories, and
with files in the same places, agree on all but what is read; and what is read from the one is
related to what is read from the other as the contents of the files are.

* `FileTree.Alike`: trees whose files have related contents.
* `FileTree.Alike.locate_eq`, `FileTree.Alike.nodeAt`, `FileTree.Alike.readBytes`: names and files
  under them.
* `FileTree.Alike.extended_eq`: what an `extends` value leads to.
* `FileTree.alike_put`: one file with one content or another.
-/

namespace ModuleMap

variable {R : List UInt8 → List UInt8 → Prop}

/-- What is at one location of two trees: nothing, directories, or files of related contents. -/
inductive Node.Alike (R : List UInt8 → List UInt8 → Prop) : Option Node → Option Node → Prop
  | none : Node.Alike R none none
  | file {bytes bytes' : List UInt8} (h : R bytes bytes') :
      Node.Alike R (some (.file bytes)) (some (.file bytes'))
  | directory {es es' : List (Segment × Node)} :
      Node.Alike R (some (.directory es)) (some (.directory es'))

theorem Node.Alike.refl (hR : ∀ bytes, R bytes bytes) (n : Option Node) : Node.Alike R n n := by
  rcases n with _ | (bytes | es)
  · exact .none
  · exact .file (hR bytes)
  · exact .directory

theorem Node.Alike.isSome_eq {n n' : Option Node} (h : Node.Alike R n n') :
    n.isSome = n'.isSome := by
  cases h <;> rfl

theorem Node.Alike.any_isDirectory_eq {n n' : Option Node} (h : Node.Alike R n n') :
    n.any isDirectory = n'.any isDirectory := by
  cases h <;> rfl

namespace FileTree

/-- Two trees with the same directories and files, whose contents are related. -/
structure Alike (R : List UInt8 → List UInt8 → Prop) (t u : FileTree) : Prop where
  node? : ∀ l, Node.Alike R (t.node? l) (u.node? l)
  workingDirectory : t.workingDirectory = u.workingDirectory
  pathLimit : t.pathLimit = u.pathLimit
  nameLimit : t.nameLimit = u.nameLimit

namespace Alike

variable {t u : FileTree} (h : Alike R t u)
include h

/-! ## Names -/

theorem enter_eq (loc : Location) (s : Segment) : t.enter loc s = u.enter loc s := by
  unfold enter hasDirectory
  rw [(h.node? loc).any_isDirectory_eq, (h.node? (loc ++ [s])).isSome_eq, h.nameLimit]

theorem step_eq (place : Place) (s : Segment) : t.step place s = u.step place s := by
  unfold step
  rw [h.enter_eq]

theorem walk_eq (place : Place) (ss : List Segment) : t.walk place ss = u.walk place ss := by
  induction ss generalizing place with
  | nil => rfl
  | cons s ss ih =>
    rw [walk_cons, walk_cons, h.step_eq]
    cases u.step place s with
    | error e => rfl
    | ok next => exact ih next

theorem locate_eq (p : Path) : t.locate p = u.locate p := by
  unfold locate refusal? start
  rw [h.pathLimit, h.workingDirectory]
  simp only [h.walk_eq]

theorem resolve_eq (p : Path) : t.resolve p = u.resolve p := by
  unfold resolve cwd?
  rw [h.workingDirectory]

/-! ## Files -/

/-- What is at a path is nothing, for the same reason, or else nodes that are alike. -/
theorem nodeAt (p : Path) :
    (∃ e, t.nodeAt p = .error e ∧ u.nodeAt p = .error e) ∨
      ∃ n n', t.nodeAt p = .ok n ∧ u.nodeAt p = .ok n' ∧ Node.Alike R (some n) (some n') := by
  rw [nodeAt_eq, nodeAt_eq, h.locate_eq]
  cases u.locate p with
  | error e => exact Or.inl ⟨e, rfl, rfl⟩
  | ok place =>
    have hnode : Node.Alike R (t.nodeIn? place) (u.nodeIn? place) := by
      unfold nodeIn?
      split
      · exact h.node? _
      · exact .directory
    simp only [Except.bind, nodeOf]
    generalize t.nodeIn? place = n at hnode
    generalize u.nodeIn? place = n' at hnode
    cases hnode with
    | none => exact Or.inl ⟨.notFound, rfl, rfl⟩
    | file hR => exact Or.inr ⟨_, _, rfl, rfl, .file hR⟩
    | directory => exact Or.inr ⟨_, _, rfl, rfl, .directory⟩

theorem isFile_eq (p : Path) : t.isFile p = u.isFile p := by
  unfold isFile
  rcases h.nodeAt p with ⟨e, ht, hu⟩ | ⟨n, n', ht, hu, hn⟩
  · rw [ht, hu]
  · rw [ht, hu]
    cases hn <;> rfl

theorem isDirectory_eq (p : Path) : t.isDirectory p = u.isDirectory p := by
  unfold isDirectory
  rcases h.nodeAt p with ⟨e, ht, hu⟩ | ⟨n, n', ht, hu, hn⟩
  · rw [ht, hu]
  · rw [ht, hu]
    cases hn <;> rfl

/-- What is read in the one tree is related to what is read in the other. -/
theorem readBytes {p : Path} {bytes : List UInt8} (hread : t.readBytes p = .ok bytes) :
    ∃ bytes', u.readBytes p = .ok bytes' ∧ R bytes bytes' := by
  unfold FileTree.readBytes at hread ⊢
  rcases h.nodeAt p with ⟨e, ht, hu⟩ | ⟨n, n', ht, hu, hn⟩
  · rw [ht] at hread
    cases hread
  · rw [ht] at hread
    rw [hu]
    cases hn with
    | file hR =>
      cases hread
      exact ⟨_, rfl, hR⟩
    | directory => cases hread

/-! ## Configs -/

theorem packageConfig?_eq (value : String) (directory : Path) :
    t.packageConfig? value directory = u.packageConfig? value directory := by
  unfold packageConfig? withJson
  simp only [h.isDirectory_eq, h.isFile_eq]

theorem extended_eq (directory : Path) (value : String) :
    t.extended directory value = u.extended directory value := by
  have hpackage : t.packageConfig? value = u.packageConfig? value :=
    funext fun d => h.packageConfig?_eq value d
  unfold extended withJson
  rw [hpackage, h.isFile_eq]

end Alike

end FileTree

/-! ## One file -/

/-- A node that is put somewhere has directories above it. -/
theorem Node.exists_get?_set_eq_directory (x : Node) (l : Location) (s : Segment) (ss : Location)
    (n : Node) : ∃ es, (set x (l ++ s :: ss) n).get? l = some (directory es) := by
  induction l generalizing n with
  | nil => exact ⟨_, rfl⟩
  | cons c l ih =>
    rw [List.cons_append, get?_cons, child?_set_cons, if_pos (beq_self_eq_true c)]
    exact ih _

/-- A tree with one content in a file or with a related one. -/
theorem FileTree.alike_put (hR : ∀ bytes, R bytes bytes) {bytes bytes' : List UInt8}
    (h : R bytes bytes') (t : FileTree) (loc : Location) :
    Alike R (t.put loc (.file bytes)) (t.put loc (.file bytes')) := by
  refine ⟨fun l => ?_, rfl, rfl, rfl⟩
  by_cases hroot : loc = []
  · subst hroot
    exact Node.Alike.refl hR _
  unfold node?
  rw [root_put t hroot, root_put t hroot]
  by_cases hbelow : loc <+: l
  · obtain ⟨r, rfl⟩ := hbelow
    rw [Node.get?_set_append, Node.get?_set_append]
    rcases r with _ | ⟨s, ss⟩
    · exact .file h
    · exact .none
  by_cases habove : l <+: loc
  · obtain ⟨r, rfl⟩ := habove
    rcases r with _ | ⟨s, ss⟩
    · rw [List.append_nil] at hbelow
      exact absurd (List.prefix_refl l) hbelow
    · obtain ⟨es, hes⟩ := Node.exists_get?_set_eq_directory (.file bytes) l s ss t.root
      obtain ⟨es', hes'⟩ := Node.exists_get?_set_eq_directory (.file bytes') l s ss t.root
      rw [hes, hes']
      exact .directory
  · rw [Node.get?_set_of_not_prefix hbelow habove, Node.get?_set_of_not_prefix hbelow habove]
    exact Node.Alike.refl hR _

end ModuleMap
