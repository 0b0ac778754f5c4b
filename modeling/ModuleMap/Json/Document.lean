import ModuleMap.Json.Reader

/-!
# Reading any JSON value

* `Json.readValue`: a value nested to at most the given depth.
* `Json.Value.parse`: the value that a whole text spells.
-/

namespace ModuleMap.Json

/-- How deep the values of a text may be nested. -/
def depthLimit : Nat := 127

/-- A value whose items and members are read by `inner`, if it may have any. -/
def readLevel (inner : Option (Reader Value)) : Reader Value
  | .null :: ts => .ok (.null, ts)
  | .bool b :: ts => .ok (.bool b, ts)
  | .number n :: ts =>
    match n.number? with
    | some v => .ok (.number v, ts)
    | none => stop .malformed (.number n :: ts)
  | .string pieces :: ts =>
    (readString (.string pieces :: ts)).map fun (s, rest) => (.string s, rest)
  | .openBracket :: ts =>
    match inner with
    | none => stop .malformed (.openBracket :: ts)
    | some read => (readItems read (.openBracket :: ts)).map fun (vs, rest) => (.array vs, rest)
  | .openBrace :: ts =>
    match inner with
    | none => stop .malformed (.openBrace :: ts)
    | some read =>
      (readEntries read (.openBrace :: ts)).map fun (ms, rest) => (Value.ofMembers ms, rest)
  | ts => stopMistyped ts

/-- A value nested to at most the given depth; the bracket that would go deeper is a fault. -/
def readValue : Nat → Reader Value
  | 0 => readLevel none
  | depth + 1 => readLevel (some (readValue depth))

/-- The value that a text spells, or what is wrong with it and on which line. -/
def Value.parse (text : List Char) : Except Error Value :=
  readDocument (readValue depthLimit) text

end ModuleMap.Json
