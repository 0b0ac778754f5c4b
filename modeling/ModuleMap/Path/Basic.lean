import ModuleMap.Text.Utf8

/-!
# Paths

A path is a byte string in which `/` separates segments.  It is read in two ways: as the raw bytes,
which is what is shown, and as the components it names, which is what lookups compare.

* `Path.segments`, `Path.ofSegments`: the bytes cut at each `/`, and back; `Path.target?`, the last
  segment apart.
* `Path.anchor`, `Path.body`: where a path starts (at the root, at an explicit `.`, or nowhere in
  particular), and the segments after that.
* `Path.components`: the anchor and the segments that name something; doubled slashes, inner `.`
  segments and a trailing slash leave no component.  `Path.key` tells paths apart by them.
* `Path.join`, `Path.parent?`, `Path.directory`, `Path.ancestors`, `Path.fileName?`,
  `Path.extension?`: the lexical operations, none of which looks at a file.
-/

namespace ModuleMap

/-- The byte of `/`. -/
abbrev slash : UInt8 := 0x2F

/-- The byte of `.`. -/
abbrev dot : UInt8 := 0x2E

/-- The bytes between two slashes. -/
abbrev Segment := List UInt8

/-- A path is any byte string. -/
structure Path where
  bytes : List UInt8
  deriving DecidableEq, Repr

namespace Path

/-- The path that a text spells. -/
def ofText (s : String) : Path :=
  ⟨Text.encode s.toList⟩

/-- The text of a path, if its bytes are UTF-8. -/
def text? (p : Path) : Option String :=
  (Text.decode? p.bytes).map String.ofList

/-- The text of a path for display, with U+FFFD where the bytes are not UTF-8. -/
def display (p : Path) : String :=
  String.ofList (Text.decodeLossy p.bytes)

/-- The path of no bytes. -/
def empty : Path := ⟨[]⟩

/-- The path `/`. -/
def root : Path := ⟨[slash]⟩

/-- The path `.`. -/
def here : Path := ⟨[dot]⟩

/-- Whether the path starts at the root. -/
def isAbsolute (p : Path) : Bool :=
  p.bytes.head? == some slash

/-- Whether the last byte is a slash. -/
def endsWithSlash (p : Path) : Bool :=
  p.bytes.getLast? == some slash

/-! ## Segments -/

/-- The bytes cut at each slash; neighbouring slashes have an empty segment between them. -/
def segments (p : Path) : List Segment :=
  p.bytes.splitOn slash

/-- The segments before the last one and the last, when the slashes at the end are left aside. -/
def target? (p : Path) : Option (List Segment × Segment) :=
  match p.segments.reverse.dropWhile (· = []) with
  | [] => none
  | s :: ss => some (ss.reverse, s)

/-- The path whose segments are given, with one slash between neighbours. -/
def ofSegments (ss : List Segment) : Path :=
  ⟨[slash].intercalate ss⟩

/-- A segment that names nothing: an empty one or `.`. -/
def isVoid (s : Segment) : Bool :=
  s == [] || s == [dot]

/-- The segment `..`. -/
def dotDot : Segment := [dot, dot]

/-- Where a path starts. -/
inductive Anchor where
  /-- At the root. -/
  | root
  /-- At an explicit `.`. -/
  | here
  /-- At whatever the path is joined to. -/
  | floating
  deriving DecidableEq, Repr

/-- Where the path starts: absolute paths at the root, relative ones at `.` if that is their first
segment. -/
def anchor (p : Path) : Anchor :=
  if p.isAbsolute then .root
  else if p.segments.head? = some [dot] then .here
  else .floating

/-- The segments after the anchor. -/
def body (p : Path) : List Segment :=
  match p.anchor with
  | .root | .here => p.segments.tail
  | .floating => p.segments

/-- The path with the given anchor and body. -/
def ofBody : Anchor → List Segment → Path
  | .root, ss => ⟨slash :: (ofSegments ss).bytes⟩
  | .here, [] => ⟨[dot]⟩
  | .here, ss => ⟨dot :: slash :: (ofSegments ss).bytes⟩
  | .floating, ss => ofSegments ss

/-! ## Components -/

/-- The segments that name something, in order; among them `..`. -/
def names (p : Path) : List Segment :=
  p.body.filter (!isVoid ·)

/-- What a path names: its anchor and its naming segments.  Two paths with the same components have
the same key. -/
def components (p : Path) : Anchor × List Segment :=
  (p.anchor, p.names)

/-- What a path is known by in tables and chains: its components, and before them their number,
which tells most paths apart at once. -/
abbrev Key := Nat × Anchor × List Segment

/-- The key of a path. -/
def key (p : Path) : Key :=
  (p.names.length, p.components)

/-- Paths have one key if and only if they have the same components. -/
theorem key_eq_key_iff {p q : Path} : p.key = q.key ↔ p.components = q.components := by
  constructor
  · exact fun h => congrArg Prod.snd h
  · intro h
    have hnames : p.names = q.names := congrArg Prod.snd h
    rw [key, key, h, hnames]

/-! ## Lexical operations -/

/-- The tail placed below the base.  An absolute tail replaces the base; the empty tail only makes
the base end with a slash. -/
def join (base tail : Path) : Path :=
  if tail.isAbsolute then tail
  else if base.bytes = [] || base.endsWithSlash then ⟨base.bytes ++ tail.bytes⟩
  else ⟨base.bytes ++ slash :: tail.bytes⟩

/-- Body segments without the void ones at the end. -/
def trimVoid (ss : List Segment) : List Segment :=
  (ss.reverse.dropWhile isVoid).reverse

/-- The path without its last component and what trails the text that remains.  The root and the
empty path have no parent; that of `.` is the empty path. -/
def parent? (p : Path) : Option Path :=
  match trimVoid p.body with
  | [] => if p.anchor = .here then some empty else none
  | s :: ss => some (ofBody p.anchor (trimVoid (s :: ss).dropLast))

/-- The directory that a path is in; that of the root is the root. -/
def directory (p : Path) : Path :=
  p.parent?.getD root

/-- At most `n` of the successive parents of a path. -/
def parents : Nat → Path → List Path
  | 0, _ => []
  | n + 1, p =>
    match p.parent? with
    | none => []
    | some q => q :: parents n q

/-- The successive parents of a path, nearest first.  Each step takes a component away, so the
number of components bounds them. -/
def properAncestors (p : Path) : List Path :=
  parents (p.names.length + 1) p

/-- A path and its successive parents, nearest first. -/
def ancestors (p : Path) : List Path :=
  p :: p.properAncestors

/-- The first answer that a path or one of at most `n` successive parents gives. -/
def findUp? {α : Type} (f : Path → Option α) : Nat → Path → Option α
  | 0, p => f p
  | n + 1, p =>
    match f p, p.parent? with
    | some a, _ => some a
    | none, some q => findUp? f n q
    | none, none => none

/-- The first answer that a path or one of its successive parents gives, nearest first. -/
def nearest? {α : Type} (p : Path) (f : Path → Option α) : Option α :=
  findUp? f (p.names.length + 1) p

theorem findUp?_eq {α : Type} (f : Path → Option α) (n : Nat) (p : Path) :
    findUp? f n p = (p :: parents n p).findSome? f := by
  induction n generalizing p with
  | zero => cases h : f p <;> simp [findUp?, parents, h]
  | succ n ih =>
    cases h : f p with
    | some a => simp [findUp?, h]
    | none =>
      cases hq : p.parent? with
      | none => simp [findUp?, parents, h, hq]
      | some q => simp [findUp?, parents, h, hq, ih q]

/-- Asking upwards is asking the ancestors one after the other. -/
theorem nearest?_eq {α : Type} (p : Path) (f : Path → Option α) :
    p.nearest? f = p.ancestors.findSome? f :=
  findUp?_eq f _ p

/-- The last component, unless that is `..` or the anchor. -/
def fileName? (p : Path) : Option Segment :=
  p.names.getLast?.filter (· ≠ dotDot)

/-- What follows the last dot of the file name; a dot that comes first does not count. -/
def extension? (p : Path) : Option Segment :=
  p.fileName?.bind fun name =>
    match name.reverse.span (· ≠ dot) with
    | (_, []) => none
    | (_, [_]) => none
    | (ext, _ :: _ :: _) => some ext.reverse

/-- The path with a suffix added to its last bytes. -/
def addSuffix (p : Path) (suffix : String) : Path :=
  ⟨p.bytes ++ Text.encode suffix.toList⟩

end Path

end ModuleMap
