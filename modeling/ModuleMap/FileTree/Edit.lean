import ModuleMap.FileTree.Read

/-!
# Changing a file tree

Paths are followed as in reading, so that what is written to a path is read back from it.  A change
that takes more than one step may stop half way; what it has done until then stays done.

* `FileTree.put`, `FileTree.cut`: one node put at a location, and the one there taken away, with
  `root_put` and `root_cut` for what becomes of the root.
* `FileTree.spot?`: the location that a path's last name stands for.
* `FileTree.makeDirectory`, `FileTree.writeFile`: one directory or file put where its path says, in
  a directory that exists.
* `Edit`, `FileTree.after`: changes that may stop half way, and the tree that they leave.
* `Edit.makeDirectories`, `Edit.write`, `Edit.remove`: a directory with those above it, some content
  with the directories above it, and removing.
* `FileTree.ofEntries`: the tree that holds the given entries and the directories above them.
-/

namespace ModuleMap

/-- What is asked for at a path. -/
inductive Content where
  | directory
  | file (bytes : List UInt8)
  deriving DecidableEq, Repr

/-- A place when all at `gone` and below has been removed and `left` is what is left above. -/
def Place.retreat (place : Place) (gone left : Location) : Place :=
  if gone.isPrefixOf place.location then
    ⟨left, place.removed + (place.location.length - left.length)⟩
  else place

namespace FileTree

/-! ## By location -/

/-- The tree with a node put at a location, in the stead of the one that was there. -/
def put (t : FileTree) (loc : Location) (node : Node) : FileTree :=
  { t with contents := (Node.set node loc t.root).entries }

/-- Putting a node below the root changes the root as `Node.set` says. -/
theorem root_put (t : FileTree) {loc : Location} (h : loc ≠ []) (node : Node) :
    (t.put loc node).root = Node.set node loc t.root :=
  Node.directory_entries (Node.isDirectory_set h node t.root)

/-- The tree without what is at a location and below.  The root itself stays. -/
def cut (t : FileTree) (loc : Location) : FileTree :=
  { t with
    contents := (Node.erase loc t.root).entries
    workingDirectory := t.workingDirectory.retreat loc loc.dropLast }

/-- Cutting changes the root as `Node.erase` says. -/
theorem root_cut (t : FileTree) (loc : Location) : (t.cut loc).root = Node.erase loc t.root :=
  Node.directory_entries (Node.isDirectory_erase loc t.root)

/-- The tree without what is below a place.  Below a removed directory there is nothing. -/
def clear (t : FileTree) (place : Place) : FileTree :=
  if place.removed = 0 then
    { t.put place.location (.directory []) with
      workingDirectory := t.workingDirectory.retreat place.location place.location }
  else t

/-! ## By path -/

/-- The location that a path's last name stands for, whether or not anything is there.  The root,
`.` and `..` are no names, and into a removed directory nothing can be put. -/
def spot? (t : FileTree) (p : Path) : Except PathError (Option Location) :=
  match t.refusal? p, p.target? with
  | some e, _ => .error e
  | none, none => .ok none
  | none, some (way, name) =>
    match t.travel (t.start p) (way ++ [[]]) with
    | .error e => .error e
    | .ok place =>
      if name = [dot] ∨ name = Path.dotDot then .ok none
      else if place.removed ≠ 0 then .error .notFound
      else if exceeds t.nameLimit name then .error .tooLong
      else .ok (some (place.location ++ [name]))

/-- The tree with a directory at a path where nothing was. -/
def makeDirectory (t : FileTree) (p : Path) : Except PathError FileTree :=
  match t.spot? p with
  | .error e => .error e
  | .ok none => .error .occupied
  | .ok (some loc) =>
    if (t.node? loc).isSome then .error .occupied else .ok (t.put loc (.directory []))

/-- The tree with a directory at a path, which may be there already. -/
def ensureDirectory (t : FileTree) (p : Path) : Except PathError FileTree :=
  match t.makeDirectory p with
  | .ok made => .ok made
  | .error e => if t.isDirectory p then .ok t else .error e

/-- The tree with a file at a path, in the stead of the file that may have been there.  A directory
is not replaced. -/
def writeFile (t : FileTree) (p : Path) (bytes : List UInt8) : Except PathError FileTree :=
  match t.spot? p with
  | .error e => .error e
  | .ok none => .error .isDirectory
  | .ok (some loc) =>
    if p.endsWithSlash || t.hasDirectory loc then .error .isDirectory
    else .ok (t.put loc (.file bytes))

end FileTree

/-! ## Changes of several steps -/

/-- Changes that may stop half way; the tree is then left as it is by then. -/
abbrev Edit := EStateM PathError FileTree

namespace Edit

/-- A single change, which is made as a whole or not at all. -/
def ofStep (f : FileTree → Except PathError FileTree) : Edit Unit := fun t =>
  match f t with
  | .ok next => .ok () next
  | .error e => .error e t

/-- A directory at a path and the missing ones among at most `n` of its successive parents.  They
are looked at from the path upwards, and made from above. -/
def makeUp : Nat → Path → Edit Unit
  | 0, p => .ofStep (·.ensureDirectory p)
  | n + 1, p => fun t =>
    if p.bytes = [] then .ok () t
    else
      match t.ensureDirectory p, p.parent? with
      | .error .notFound, some q => (do makeUp n q; .ofStep (·.ensureDirectory p)) t
      | .error e, _ => .error e t
      | .ok made, _ => .ok () made

/-- A directory at a path and the missing ones above it. -/
def makeDirectories (p : Path) : Edit Unit :=
  makeUp (p.names.length + 1) p

/-- The given content at the place that a path names, and the directories above it.  What is there
already stays where a directory is asked for. -/
def write (p : Path) : Content → Edit Unit
  | .directory => makeDirectories p
  | .file bytes => do
    if let some parent := p.parent? then makeDirectories parent
    .ofStep (·.writeFile p bytes)

/-- What a path names taken away, and all below it.  Where the path does not end in a name, only
what is below it goes. -/
def remove (p : Path) : Edit Unit := fun t =>
  match t.locate p, p.target? with
  | .error e, _ => .error e t
  | .ok place, none => .error .busy (t.clear place)
  | .ok place, some (_, name) =>
    if name = [dot] then .error .unnamed (t.clear place)
    else if name = Path.dotDot then .error .notEmpty (t.clear place)
    else .ok () (t.cut place.location)

end Edit

/-! ## Whole trees -/

namespace FileTree

/-- The tree that a change leaves behind, whether or not it has stopped half way. -/
def after (t : FileTree) (edit : Edit Unit) : FileTree :=
  match edit.run t with
  | .ok _ next => next
  | .error _ next => next

/-- The tree of the given entries on a disk, seen from the directory `cwd`, which is made if it is
missing.  An entry that has no place is left out. -/
def ofEntries (cwd : Path) (entries : List (Path × Content)) : FileTree :=
  let t := (entries ++ [(cwd, Content.directory)]).foldl
    (fun (t : FileTree) entry => t.after (.write entry.1 entry.2))
    { pathLimit := some diskPathLimit, nameLimit := some diskNameLimit }
  { t with workingDirectory := (t.locate cwd).toOption.getD .root }

end FileTree

end ModuleMap
