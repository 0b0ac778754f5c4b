import ModuleMap.Json.Error
import ModuleMap.Json.Number

/-!
# Reading JSON tokens

A reader takes tokens from the left and gives a value or the first fault in reading order.  It never
sees a line: a fault names the token it concerns by the number of tokens that were left, and the
line is looked up at the end.  Two texts with the same tokens are therefore read alike.

* `Json.Stop`, `Json.Reader`: where reading stopped, and readers.
* `Json.skipValue`: a value that is passed over.  Its strings and numbers need only look right, and
  it may be nested to any depth.
* `Json.readString`, `Json.readBool`, `Json.readByte`, `Json.readNullable`, `Json.readItems`,
  `Json.readEntries`: values of an expected type.
* `Json.readRecord`: an object of known members, which may also be written as an array.
* `Json.readChoice`: one word of a list.
* `Json.readDocument`: a whole text.
-/

namespace ModuleMap.Json

/-- Where and why reading stopped. -/
structure Stop where
  category : Category
  /-- The number of tokens left, the one concerned among them. -/
  left : Nat
  /-- The line ends that were passed inside that token. -/
  passed : Nat := 0
  /-- Whether the fault is that of a value already read, and has no place of its own yet. -/
  afterValue : Bool := false
  deriving DecidableEq, Repr

/-- A reader gives a value and the tokens after it, or stops. -/
abbrev Reader (α : Type) := List Token → Except Stop (α × List Token)

/-! ## Stopping -/

/-- Stops at the next token, for the given reason. -/
def stop {α : Type} (category : Category) (ts : List Token) : Except Stop α :=
  .error ⟨category, ts.length, 0, false⟩

/-- Stops because the next token does not belong where it is, or because there is none. -/
def unexpected {α : Type} : List Token → Except Stop α
  | [] => stop .incomplete []
  | ts => stop .malformed ts

/-- Stops because of the flaw of the next token. -/
def stopFlawed {α : Type} (flaw : Flaw) (ts : List Token) : Except Stop α :=
  match flaw with
  | .cutOff => stop .incomplete ts
  | .misfit passed => .error ⟨.malformed, ts.length, passed, false⟩

/-! ## Strings and numbers -/

/-- Whether a code unit is the first half of a character. -/
def isHighUnit (n : Nat) : Bool :=
  0xD800 ≤ n && n ≤ 0xDBFF

/-- Whether a code unit is the second half of a character. -/
def isLowUnit (n : Nat) : Bool :=
  0xDC00 ≤ n && n ≤ 0xDFFF

/-- The characters that pieces form, and whether a first half is left waiting at the end; nothing if
a half stands without its other half before the end. -/
def unite? : List Piece → Option (List Char × Bool)
  | [] => some ([], false)
  | .char c :: ps => (unite? ps).map fun (cs, waiting) => (c :: cs, waiting)
  | .unit n :: ps =>
    if isLowUnit n then none
    else if isHighUnit n then
      match ps with
      | [] => some ([], true)
      | .unit m :: qs =>
        if isLowUnit m then
          let c := Char.ofNat (0x10000 + (n - 0xD800) * 0x400 + (m - 0xDC00))
          (unite? qs).map fun (cs, waiting) => (c :: cs, waiting)
        else none
      | .char _ :: _ => none
    else (unite? ps).map fun (cs, waiting) => (Char.ofNat n :: cs, waiting)

/-- The text of a string token. -/
def textOf? (pieces : List Piece) : Option String :=
  match unite? pieces with
  | some (cs, false) => some (String.ofList cs)
  | _ => none

/-- Stops at a broken string: at a half character if there is one, else at the flaw. -/
def stopBrokenString {α : Type} (pieces : List Piece) (flaw : Flaw) (ts : List Token) :
    Except Stop α :=
  match unite? pieces with
  | some _ => stopFlawed flaw ts
  | none => stop .malformed ts

/-- Stops at a value of another type than the expected one; if the value itself is faulty, that
fault comes first. -/
def stopMistyped {α : Type} : List Token → Except Stop α
  | .number n :: ts =>
    if n.number?.isSome then stop .mistyped (.number n :: ts) else stop .malformed (.number n :: ts)
  | .string pieces :: ts =>
    if (textOf? pieces).isSome then stop .mistyped (.string pieces :: ts)
    else stop .malformed (.string pieces :: ts)
  | .brokenString pieces flaw skipFlaw :: ts =>
    stopBrokenString pieces flaw (.brokenString pieces flaw skipFlaw :: ts)
  | .brokenWord flaw :: ts => stopFlawed flaw (.brokenWord flaw :: ts)
  | .brokenNumber flaw :: ts => stopFlawed flaw (.brokenNumber flaw :: ts)
  | .null :: ts => stop .mistyped (.null :: ts)
  | .bool b :: ts => stop .mistyped (.bool b :: ts)
  | .openBrace :: ts => stop .mistyped (.openBrace :: ts)
  | .openBracket :: ts => stop .mistyped (.openBracket :: ts)
  | ts => unexpected ts

/-- A string. -/
def readString : Reader String
  | .string pieces :: ts =>
    match textOf? pieces with
    | some s => .ok (s, ts)
    | none => stop .malformed (.string pieces :: ts)
  | ts => stopMistyped ts

/-- `true` or `false`. -/
def readBool : Reader Bool
  | .bool b :: ts => .ok (b, ts)
  | ts => stopMistyped ts

/-- A whole number below 256. -/
def readByte : Reader Nat
  | .number n :: ts =>
    match n.number? with
    | some (.natural k) => if k < 256 then .ok (k, ts) else stop .mistyped (.number n :: ts)
    | _ => stopMistyped (.number n :: ts)
  | ts => stopMistyped ts

/-- `null`, or a value of the given type. -/
def readNullable {α : Type} (read : Reader α) : Reader (Option α)
  | .null :: ts => .ok (none, ts)
  | ts => (read ts).map fun (a, rest) => (some a, rest)

/-! ## Values that are passed over -/

/-- The brackets that can be open. -/
inductive Bracket where
  | brace
  | bracket
  deriving DecidableEq, Repr

/-- What may come next in a value that is passed over. -/
inductive Awaiting where
  /-- A value. -/
  | value
  /-- The first item or member, or the closing bracket. -/
  | first
  /-- A key. -/
  | key
  /-- The colon after a key. -/
  | colon
  /-- A comma, or the closing bracket. -/
  | separator
  deriving DecidableEq, Repr

/-- What comes where a new item or member begins inside the bracket. -/
def Bracket.element : Bracket → Awaiting
  | .brace => .key
  | .bracket => .value

/-- The rest of a value that is passed over, inside the given open brackets, innermost first. -/
def skipFrom : List Bracket → Awaiting → List Token → Except Stop (List Token)
  | [], .separator, ts => .ok ts
  | _, _, [] => stop .incomplete []
  | opened, awaiting, t :: ts =>
    match awaiting, opened, t with
    | .first, .brace :: outer, .closeBrace => skipFrom outer .separator ts
    | .first, .bracket :: outer, .closeBracket => skipFrom outer .separator ts
    | .separator, .brace :: outer, .closeBrace => skipFrom outer .separator ts
    | .separator, .bracket :: outer, .closeBracket => skipFrom outer .separator ts
    | .separator, b :: outer, .comma => skipFrom (b :: outer) b.element ts
    | .separator, _, _ => stop .malformed (t :: ts)
    | .colon, _, .colon => skipFrom opened .value ts
    | .colon, _, _ => stop .malformed (t :: ts)
    | .key, _, .string _ => skipFrom opened .colon ts
    | .key, _, .brokenString _ _ flaw => stopFlawed flaw (t :: ts)
    | .key, _, _ => stop .malformed (t :: ts)
    | .first, .brace :: _, .string _ => skipFrom opened .colon ts
    | .first, .brace :: _, .brokenString _ _ flaw => stopFlawed flaw (t :: ts)
    | .first, .brace :: _, _ => stop .malformed (t :: ts)
    | _, _, .openBrace => skipFrom (.brace :: opened) .first ts
    | _, _, .openBracket => skipFrom (.bracket :: opened) .first ts
    | _, _, .null => skipFrom opened .separator ts
    | _, _, .bool _ => skipFrom opened .separator ts
    | _, _, .number _ => skipFrom opened .separator ts
    | _, _, .string _ => skipFrom opened .separator ts
    | _, _, .brokenString _ _ flaw => stopFlawed flaw (t :: ts)
    | _, _, .brokenWord flaw => stopFlawed flaw (t :: ts)
    | _, _, .brokenNumber (.misfit passed) => stopFlawed (.misfit passed) (t :: ts)
    | _, _, .brokenNumber .cutOff => stop .malformed (t :: ts)
    | _, _, _ => stop .malformed (t :: ts)

/-- A value that is passed over. -/
def skipValue (ts : List Token) : Except Stop (List Token) :=
  skipFrom [] .value ts

/-! ## Items and members -/

/-- Whether another item follows; its comma is taken.  The closing bracket stays. -/
def moreItems (first : Bool) : Reader Bool
  | .closeBracket :: ts => .ok (false, .closeBracket :: ts)
  | [] => stop .incomplete []
  | .comma :: ts =>
    if first then .ok (true, .comma :: ts)
    else
      match ts with
      | [] => stop .incomplete []
      | .closeBracket :: _ => stop .malformed ts
      | _ => .ok (true, ts)
  | ts => if first then .ok (true, ts) else stop .malformed ts

/-- The key of another member, if one follows; its comma is taken.  The closing brace stays. -/
def nextKey (first : Bool) : Reader (Option String)
  | .closeBrace :: ts => .ok (none, .closeBrace :: ts)
  | [] => stop .incomplete []
  | ts =>
    let key : Reader (Option String)
      | .string pieces :: rest =>
        (readString (.string pieces :: rest)).map fun (k, r) => (some k, r)
      | .brokenString pieces flaw skipFlaw :: rest =>
        stopBrokenString pieces flaw (.brokenString pieces flaw skipFlaw :: rest)
      | rest => unexpected rest
    if first then key ts
    else
      match ts with
      | .comma :: rest => key rest
      | _ => stop .malformed ts

/-- A colon. -/
def readColon : List Token → Except Stop (List Token)
  | .colon :: ts => .ok ts
  | ts => unexpected ts

/-- The items of an array from the given state on, with its closing bracket, each folded into the
state.  There are at most as many as tokens. -/
def foldItems {σ : Type} (item : σ → Reader σ) : Nat → Bool → σ → Reader σ
  | 0, _, _, ts => unexpected ts
  | fuel + 1, first, s, ts => do
    match ← moreItems first ts with
    | (false, rest) => .ok (s, rest.tail)
    | (true, rest) =>
      let (s, rest) ← item s rest
      foldItems item fuel false s rest

/-- The members of an object from the given state on, with its closing brace, each folded into the
state by a reader that starts after the key.  There are at most as many as tokens. -/
def foldMembers {σ : Type} (member : String → σ → Reader σ) : Nat → Bool → σ → Reader σ
  | 0, _, _, ts => unexpected ts
  | fuel + 1, first, s, ts => do
    match ← nextKey first ts with
    | (none, rest) => .ok (s, rest.tail)
    | (some key, rest) =>
      let (s, rest) ← member key s rest
      foldMembers member fuel false s rest

/-- An array of values of the given type. -/
def readItems {α : Type} (read : Reader α) : Reader (List α)
  | .openBracket :: ts => do
    let (found, rest) ← foldItems (fun found ts => do
      let (a, rest) ← read ts
      .ok (a :: found, rest)) ts.length true [] ts
    .ok (found.reverse, rest)
  | ts => stopMistyped ts

/-- An object whose members all have values of the given type, in the order in which they are
written; a key may come more than once. -/
def readEntries {α : Type} (read : Reader α) : Reader (List (String × α))
  | .openBrace :: ts => do
    let (found, rest) ← foldMembers (fun key found ts => do
      let rest ← readColon ts
      let (a, rest) ← read rest
      .ok ((key, a) :: found, rest)) ts.length true [] ts
    .ok (found.reverse, rest)
  | ts => stopMistyped ts

/-! ## Records -/

/-- A known member of an object: its key, and how its value changes what is known so far. -/
structure Field (σ : Type) where
  key : String
  read : σ → Reader σ

/-- Which members may be missing. -/
structure Presence where
  /-- The keys that an object must have. -/
  required : List String := []
  /-- Whether an array may end before all members are given. -/
  mayEndEarly : Bool := true

/-- The fault of a value already read, placed at the token after it; in an array, after the
comma. -/
def Stop.settle (s : Stop) (inArray : Bool) (ts : List Token) : Stop :=
  if s.afterValue then
    match inArray, ts.drop (ts.length - s.left) with
    | true, .comma :: rest => { s with left := rest.length, afterValue := false }
    | _, _ => { s with afterValue := false }
  else s

/-- A reader whose unplaced faults are placed. -/
def settled {α : Type} (inArray : Bool) (read : Reader α) : Reader α :=
  fun ts => (read ts).mapError (·.settle inArray ts)

/-- The members of a record that is written as an object.  Unknown keys are passed over; a known key
must not come twice. -/
def readRecordMembers {σ : Type} (fields : List (Field σ)) (presence : Presence) (s : σ) :
    Reader σ := fun ts => do
  let member (key : String) (state : List String × σ) : Reader (List String × σ) := fun ts =>
    match fields.find? (·.key == key) with
    | none => do
      let rest ← readColon ts
      let rest ← skipValue rest
      .ok (state, rest)
    | some field =>
      if key ∈ state.1 then stop .mistyped ts
      else do
        let rest ← readColon ts
        let (s, rest) ← settled false (field.read state.2) rest
        .ok ((key :: state.1, s), rest)
  let ((given, s), rest) ← foldMembers member ts.length true ([], s) ts
  if presence.required.all (· ∈ given) then .ok (s, rest)
  else .error ⟨.mistyped, rest.length + 1, 0, false⟩

/-- The closing bracket of a record that is written as an array. -/
def closeRecord : List Token → Except Stop (List Token)
  | .closeBracket :: ts => .ok ts
  | .comma :: ts => stop .malformed ts
  | ts => unexpected ts

/-- The members of a record that is written as an array, in the order of the fields. -/
def readRecordItems {σ : Type} (presence : Presence) : Bool → List (Field σ) → σ → Reader σ
  | _, [], s, ts => do
    let rest ← closeRecord ts
    .ok (s, rest)
  | first, field :: fields, s, ts => do
    match ← moreItems first ts with
    | (false, rest) =>
      if presence.mayEndEarly then .ok (s, rest.tail) else stop .mistyped rest
    | (true, rest) =>
      let (s, rest) ← settled true (field.read s) rest
      readRecordItems presence false fields s rest

/-- A record: an object of the given fields, or an array of their values. -/
def readRecord {σ : Type} (fields : List (Field σ)) (presence : Presence) (s : σ) : Reader σ
  | .openBrace :: ts => readRecordMembers fields presence s ts
  | .openBracket :: ts => readRecordItems presence true fields s ts
  | ts => stopMistyped ts

/-! ## Words of a list -/

/-- One of the given words: a string, or an object with the word as its one key and the value
`null`. -/
def readChoice {α : Type} (choices : List (String × α)) : Reader α :=
  let word : Reader α := fun ts => do
    let (s, rest) ← readString ts
    match choices.lookup s with
    | some a => .ok (a, rest)
    | none => stop .mistyped ts
  fun ts =>
    match ts with
    | .string _ :: _ | .brokenString _ _ _ :: _ => word ts
    | .openBrace :: rest => do
      let (a, rest) ←
        match rest with
        | .string _ :: _ | .brokenString _ _ _ :: _ => word rest
        | _ => unexpected rest
      let rest ← readColon rest
      match rest with
      | .null :: .closeBrace :: rest => .ok (a, rest)
      | .null :: rest => unexpected rest
      | _ => stopMistyped rest
    | _ => unexpected ts

/-! ## Whole texts -/

/-- A reader of all tokens: after the value nothing may follow. -/
def readAll {α : Type} (read : Reader α) (ts : List Token) : Except Stop α := do
  match ← read ts with
  | (a, []) => .ok a
  | (_, rest) => stop .malformed rest

/-- The line that a stop reached, in a text of the given tokens and number of lines. -/
def Stop.line (s : Stop) (placed : List Placed) (lines : Nat) : Nat :=
  match s.category, (placed.drop (placed.length - s.left)).head? with
  | .incomplete, _ => lines
  | _, some p => p.line + s.passed
  | _, none => lines

/-- The value that a text spells, or what is wrong with it and on which line. -/
def readDocument {α : Type} (read : Reader α) (text : List Char) : Except Error α :=
  let placed := tokens text
  match readAll read (placed.map (·.token)) with
  | .ok a => .ok a
  | .error s => .error ⟨s.category, s.line placed (lineCount text)⟩

end ModuleMap.Json
