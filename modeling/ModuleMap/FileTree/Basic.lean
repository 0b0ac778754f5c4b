import ModuleMap.FileTree.Node
import ModuleMap.Path.Normalize

/-!
# File trees

A file tree is a value: the files and directories that exist, and the directory from which relative
paths are taken.  Names are resolved physically, one segment after the other, so `a/..` leads
somewhere only if `a` is a directory.

A directory may be removed while it is the working directory.  It then stays what relative paths are
taken from: nothing is in it any more, but its `..` still leads to the directory that it was in.

* `Place`: where names can lead.
* `FileTree`, `FileTree.node?`: a tree and what is at each location.
* `FileTree.enter`, `FileTree.step`, `FileTree.walk`: following names.
* `FileTree.locate`: the place a path names, or why it names none.
* `FileTree.cwd?`, `FileTree.resolve`: the path of the working directory, and paths taken from it.
* `FileTree.canonical?`: the absolute path without `.` and `..` that names the same location, found
  by `FileTree.reach?`, which leads where `FileTree.walk` does (`walk_of_reach?`).
-/

namespace ModuleMap

/-- Where names can lead: to a location in the tree, or to a directory that has been removed. -/
structure Place where
  /-- The location, or of a removed directory the innermost location on the way to it that is
  left. -/
  location : Location
  /-- How many levels below the location the removed directory was; none for the location
  itself. -/
  removed : Nat := 0
  deriving DecidableEq, Repr

/-- The root of a tree. -/
def Place.root : Place := ⟨[], 0⟩

/-- Why a path could not be used. -/
inductive PathError where
  /-- Nothing is there. -/
  | notFound
  /-- The way leads through something that is no directory. -/
  | notDirectory
  /-- A directory has no text. -/
  | isDirectory
  /-- The bytes are not UTF-8. -/
  | notUtf8
  /-- A path with a NUL byte names nothing. -/
  | nulByte
  /-- The path, or a name in it, has more bytes than can be followed. -/
  | tooLong
  /-- The empty path has no absolute form. -/
  | emptyPath
  /-- Something is there already. -/
  | occupied
  /-- The root stays where it is. -/
  | busy
  /-- What is spelled `.` has no name that could be taken away. -/
  | unnamed
  /-- What is spelled `..` holds the directory that it is reached from. -/
  | notEmpty
  deriving DecidableEq, Repr

/-- The text of the error. -/
def PathError.message : PathError → String
  | notFound => "No such file or directory (os error 2)"
  | notDirectory => "Not a directory (os error 20)"
  | isDirectory => "Is a directory (os error 21)"
  | notUtf8 => "stream did not contain valid UTF-8"
  | nulByte => "file name contained an unexpected NUL byte"
  | tooLong => "File name too long (os error 36)"
  | emptyPath => "cannot make an empty path absolute"
  | occupied => "File exists (os error 17)"
  | busy => "Device or resource busy (os error 16)"
  | unnamed => "Invalid argument (os error 22)"
  | notEmpty => "Directory not empty (os error 39)"

/-- A file tree: what is in the root directory, and the working directory. -/
structure FileTree where
  contents : List (Segment × Node) := []
  workingDirectory : Place := .root
  /-- The number of bytes that a path may have to be followed, if there is a bound. -/
  pathLimit : Option Nat := none
  /-- The number of bytes that a name may have to be looked up, if there is a bound. -/
  nameLimit : Option Nat := none

namespace FileTree

/-- The number of bytes that a path on a disk may have. -/
def diskPathLimit : Nat := 4095

/-- The number of bytes that a name on a disk may have. -/
def diskNameLimit : Nat := 255

/-- The root directory. -/
def root (t : FileTree) : Node :=
  .directory t.contents

/-- The absolute path of a location. -/
def pathOf (loc : Location) : Path :=
  .ofBody .root loc

/-- What is at a location.  The root is always a directory. -/
def node? (t : FileTree) (loc : Location) : Option Node :=
  t.root.get? loc

@[simp] theorem node?_nil (t : FileTree) : t.node? [] = some t.root := rfl

/-- Whether there is a directory at a location. -/
def hasDirectory (t : FileTree) (loc : Location) : Bool :=
  (t.node? loc).any Node.isDirectory

/-- What is at a place; a removed directory is still one, with nothing in it. -/
def nodeIn? (t : FileTree) (place : Place) : Option Node :=
  if place.removed = 0 then t.node? place.location else some (.directory [])

/-! ## Following names -/

/-- Whether there are more bytes than a bound allows. -/
def exceeds (limit : Option Nat) (bytes : List UInt8) : Bool :=
  limit.any (· < bytes.length)

/-- One segment followed from a location.  Every step, also one that stays, needs a directory to
start from; `..` of the root is the root. -/
def enter (t : FileTree) (loc : Location) (s : Segment) : Except PathError Location :=
  if !t.hasDirectory loc then .error .notDirectory
  else if Path.isVoid s then .ok loc
  else if s = Path.dotDot then .ok loc.dropLast
  else if exceeds t.nameLimit s then .error .tooLong
  else if (t.node? (loc ++ [s])).isSome then .ok (loc ++ [s])
  else .error .notFound

/-- One segment followed from a place.  No name leads on from a removed directory, but `..` leads
back. -/
def step (t : FileTree) (place : Place) (s : Segment) : Except PathError Place :=
  match place.removed with
  | 0 => (t.enter place.location s).map fun loc => ⟨loc, 0⟩
  | n + 1 =>
    if Path.isVoid s then .ok place
    else if s = Path.dotDot then .ok ⟨place.location, n⟩
    else .error .notFound

/-- The segments followed one after the other. -/
def walk (t : FileTree) : Place → List Segment → Except PathError Place
  | place, [] => .ok place
  | place, s :: ss =>
    match t.step place s with
    | .ok next => t.walk next ss
    | .error e => .error e

@[simp] theorem walk_nil (t : FileTree) (place : Place) : t.walk place [] = .ok place := rfl

theorem walk_cons (t : FileTree) (place : Place) (s : Segment) (ss : List Segment) :
    t.walk place (s :: ss) =
      match t.step place s with
      | .ok next => t.walk next ss
      | .error e => .error e := rfl

/-- The place that a path starts from. -/
def start (t : FileTree) (p : Path) : Place :=
  if p.isAbsolute then .root else t.workingDirectory

/-- Why a path is not followed at all, if it is not. -/
def refusal? (t : FileTree) (p : Path) : Option PathError :=
  if 0 ∈ p.bytes then some .nulByte
  else if p.bytes = [] then some .notFound
  else if exceeds t.pathLimit p.bytes then some .tooLong
  else none

/-- The place that a path names.  A trailing slash asks for a directory, as an empty segment. -/
def locate (t : FileTree) (p : Path) : Except PathError Place :=
  match t.refusal? p with
  | some e => .error e
  | none => t.walk (t.start p) p.segments

/-! ## The working directory -/

/-- The working directory as a path; one that has been removed has none. -/
def cwd? (t : FileTree) : Option Path :=
  if t.workingDirectory.removed = 0 then some (pathOf t.workingDirectory.location) else none

/-- The working directory as a path, which is `.` if it has none of its own. -/
def cwd (t : FileTree) : Path :=
  t.cwd?.getD .here

/-- The normal form of a path taken from the working directory. -/
def resolve (t : FileTree) (p : Path) : Except PathError Path :=
  if p.bytes = [] then .error .emptyPath
  else if p.isAbsolute then .ok p.normalize
  else
    match t.cwd? with
    | some cwd => .ok (cwd.join p).normalize
    | none => .error .notFound

/-! ## Canonical paths -/

/-- The number of bytes in the absolute path of a location below the root. -/
def width (loc : Location) : Nat :=
  loc.foldr (fun s bytes => s.length + 1 + bytes) 0

/-- Whether segments ask for a directory before they name anything in it: `..` does, and so do void
segments at the end. -/
def asksDirectory (ss : List Segment) : Bool :=
  match ss.dropWhile Path.isVoid with
  | [] => !ss.isEmpty
  | s :: _ => s == Path.dotDot

/-- The location that segments lead to, when after each name the location is looked at by its
absolute path, which gets a slash where a directory is asked for. -/
def reach? (t : FileTree) : Location → List Segment → Option Location
  | loc, [] => some loc
  | loc, s :: ss =>
    match t.enter loc s with
    | .error _ => none
    | .ok next =>
      let stays := Path.isVoid s || s == Path.dotDot
      let bytes := width next + (asksDirectory ss).toNat
      if !stays && t.pathLimit.any (· < bytes) then none else t.reach? next ss

/-- Looking at the locations on the way leads nowhere else than following the names. -/
theorem walk_of_reach? {t : FileTree} {ss : List Segment} {loc last : Location}
    (h : t.reach? loc ss = some last) : t.walk ⟨loc, 0⟩ ss = .ok ⟨last, 0⟩ := by
  induction ss generalizing loc with
  | nil =>
    cases h
    rfl
  | cons s ss ih =>
    rw [reach?] at h
    rw [walk_cons]
    cases hnext : t.enter loc s with
    | error e =>
      rw [hnext] at h
      cases h
    | ok next =>
      simp only [hnext] at h
      split at h
      · cases h
      · simp only [step, hnext]
        exact ih h

/-- The absolute path without `.`, `..` and trailing slash that names the same location, if the path
names one.  It is found by looking at one location after the other, so the length of the path itself
does not matter, but that of the locations on the way does. -/
def canonical? (t : FileTree) (p : Path) : Option Path :=
  if 0 ∈ p.bytes ∨ p.bytes = [] then none
  else if p.isAbsolute = false ∧ t.cwd? = none then none
  else (t.reach? (t.start p).location p.segments).map pathOf

end FileTree

end ModuleMap
