import ModuleMap.FileTree.Trail

/-!
# Reading a file tree

* `FileTree.nodeAt`: what a path names, with `nodeAt_eq` for where it is found.
* `FileTree.isFile`, `FileTree.isDirectory`: probes, false on every failure.
* `FileTree.readBytes`, `FileTree.readText`, `FileTree.readOptional`, `FileTree.readLossy`: reading.
-/

namespace ModuleMap.FileTree

/-- What a place holds. -/
def nodeOf (t : FileTree) (place : Place) : Except PathError Node :=
  match t.nodeIn? place with
  | some node => .ok node
  | none => .error .notFound

/-- What a path names. -/
def nodeAt (t : FileTree) (p : Path) : Except PathError Node :=
  match t.refusal? p, t.trailTo? (t.start p) with
  | some e, _ => .error e
  | none, some trail => (t.follow trail p.segments).map (Trail.node t.root)
  | none, none => (t.walk (t.start p) p.segments).bind t.nodeOf

/-- What a path names is what is at the place that it names. -/
theorem nodeAt_eq (t : FileTree) (p : Path) : t.nodeAt p = (t.locate p).bind t.nodeOf := by
  rw [nodeAt, locate]
  cases t.refusal? p with
  | some e => rfl
  | none =>
    cases htrail : t.trailTo? (t.start p) with
    | none => rfl
    | some trail =>
      obtain ⟨hleads, hstart⟩ := leads_trailTo? htrail
      obtain ⟨hwalk, hlast⟩ := walk_of_follow hleads p.segments
      simp only
      rw [← hstart, hwalk]
      cases hfollow : t.follow trail p.segments with
      | error e => rfl
      | ok last =>
        have hnode : t.node? last.location = some (last.node t.root) :=
          (hlast last hfollow).get?_location
        simp [Except.map, Except.bind, nodeOf, nodeIn?, hnode]

/-- Whether the path names a file. -/
def isFile (t : FileTree) (p : Path) : Bool :=
  match t.nodeAt p with
  | .ok (.file _) => true
  | _ => false

/-- Whether the path names a directory. -/
def isDirectory (t : FileTree) (p : Path) : Bool :=
  match t.nodeAt p with
  | .ok (.directory _) => true
  | _ => false

/-- The bytes of a file. -/
def readBytes (t : FileTree) (p : Path) : Except PathError (List UInt8) :=
  match t.nodeAt p with
  | .ok (.file bytes) => .ok bytes
  | .ok (.directory _) => .error .isDirectory
  | .error e => .error e

/-- The text of a file, which must be UTF-8. -/
def readText (t : FileTree) (p : Path) : Except PathError (List Char) :=
  match t.readBytes p with
  | .error e => .error e
  | .ok bytes =>
    match Text.decode? bytes with
    | some text => .ok text
    | none => .error .notUtf8

/-- The text of a file, or nothing if there is no such file.  Only a missing file counts as absent;
every other failure is an error. -/
def readOptional (t : FileTree) (p : Path) : Except PathError (Option (List Char)) :=
  match t.readText p with
  | .ok text => .ok (some text)
  | .error .notFound => .ok none
  | .error e => .error e

/-- The text of a file, with U+FFFD for each malformed part. -/
def readLossy (t : FileTree) (p : Path) : Except PathError (List Char) :=
  match t.readBytes p with
  | .ok bytes => .ok (Text.decodeLossy bytes)
  | .error e => .error e

end ModuleMap.FileTree
