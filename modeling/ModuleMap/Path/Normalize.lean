import ModuleMap.Path.Basic

/-!
# Lexical normal form

Joining a tail below a base and removing `.`, `..` and doubled slashes without looking at any file.
Unlike `Path.join`, an absolute tail does not replace the base: its segments are appended.

* `Path.push`, `Path.settle`: naming segments run through a stack, which `..` pops.
* `Path.joinNormalized`: the settled segments of base and tail, rooted as the base is.  A trailing
  slash of the tail is kept, so that a path that can only be a directory stays recognisable; so is
  that of the base where the tail is empty.
* `Path.normalize`: the normal form of one path.
-/

namespace ModuleMap.Path

/-- One naming segment put on a stack of segments, innermost first.  `..` takes a name off; above
the root it stays at the root, and above a relative start it is kept. -/
def push (absolute : Bool) (stack : List Segment) (s : Segment) : List Segment :=
  if s = dotDot then
    match stack with
    | [] => if absolute then [] else [dotDot]
    | top :: rest => if top = dotDot then dotDot :: top :: rest else rest
  else s :: stack

/-- The segments that are left when each `..` has taken back the name before it. -/
def settle (absolute : Bool) (ss : List Segment) : List Segment :=
  (ss.foldl (push absolute) []).reverse

@[simp] theorem settle_nil (absolute : Bool) : settle absolute [] = [] := rfl

/-- The path of settled segments: `/` before them if it is absolute, and `.` if nothing is left of a
relative one. -/
def ofSettled (absolute : Bool) (ss : List Segment) : Path :=
  if absolute then ⟨slash :: (ofSegments ss).bytes⟩
  else if ss = [] then ⟨[dot]⟩
  else ofSegments ss

/-- The path with a slash at its end. -/
def closeWithSlash (p : Path) : Path :=
  if p.endsWithSlash then p else ⟨p.bytes ++ [slash]⟩

/-- The tail placed below the base, in normal form. -/
def joinNormalized (base tail : Path) : Path :=
  let joined := ofSettled base.isAbsolute (settle base.isAbsolute (base.names ++ tail.names))
  let closed := if tail.bytes = [] then base.endsWithSlash else tail.endsWithSlash
  if closed then joined.closeWithSlash else joined

/-- The normal form of a path. -/
def normalize (p : Path) : Path :=
  p.joinNormalized empty

end ModuleMap.Path
