import ModuleMap.Binary64
import ModuleMap.Json.Value

/-!
# Writing JSON

* `Json.quote`: a string in quotes.
* `Json.Number.text`: a number.  A double has the fewest digits that read back, a point or an
  exponent, and is positional from `1e-5` up to below `1e16`.
* `Json.Value.compact`: a value without blanks.
* `Json.Value.pretty`: a value with one item or member a line, indented by two spaces a level.
-/

namespace ModuleMap.Json

/-! ## Strings -/

/-- The lower-case hexadecimal digit of a number below 16. -/
def hexDigit (n : Nat) : Char :=
  Nat.digitChar n

/-- A character inside quotes: quotes, backslashes and control characters are escaped. -/
def escape (c : Char) : List Char :=
  if c = '"' then ['\\', '"']
  else if c = '\\' then ['\\', '\\']
  else if c = '\x08' then ['\\', 'b']
  else if c = '\x0c' then ['\\', 'f']
  else if c = '\n' then ['\\', 'n']
  else if c = '\r' then ['\\', 'r']
  else if c = '\t' then ['\\', 't']
  else if c < ' ' then ['\\', 'u', '0', '0', hexDigit (c.toNat / 16), hexDigit (c.toNat % 16)]
  else [c]

/-- A string in quotes. -/
def quote (s : String) : String :=
  String.ofList ('"' :: s.toList.flatMap escape ++ ['"'])

/-! ## Numbers -/

/-- The exponent of ten below which a double is written with an exponent. -/
def leastPositional : Int := -5

/-- The exponent of ten from which on a double is written with an exponent. -/
def exponentFrom : Int := 16

/-- The decimal digits of a number without the zeros at its end; of zero, one zero. -/
def significantDigits (n : Nat) : List Char :=
  match ((Nat.toDigits 10 n).reverse.dropWhile (· == '0')).reverse with
  | [] => ['0']
  | ds => ds

/-- A finite double as text. -/
def doubleText (x : Binary64) : List Char :=
  let sign := if x.negative then ['-'] else []
  let d := x.shortest
  let digits := significantDigits d.digits
  let power := d.exponent + (Nat.toDigits 10 d.digits).length - 1
  if d.digits = 0 then sign ++ ['0', '.', '0']
  else if leastPositional ≤ power && power < exponentFrom then
    if power < 0 then sign ++ ['0', '.'] ++ List.replicate (-power - 1).toNat '0' ++ digits
    else
      let whole := power.toNat + 1
      let padded := digits ++ List.replicate (whole - digits.length) '0'
      let fraction := padded.drop whole
      sign ++ padded.take whole ++ ['.'] ++ (if fraction = [] then ['0'] else fraction)
  else
    let fraction := digits.tail
    sign ++ digits.take 1 ++ (if fraction = [] then [] else '.' :: fraction) ++ ['e'] ++
      (if power < 0 then ['-'] else ['+']) ++ Nat.toDigits 10 power.natAbs

/-- A number as text. -/
def Number.text : Number → String
  | natural n => toString n
  | negated n => "-" ++ toString n
  | double bits => String.ofList (doubleText (Binary64.ofBits bits))

/-! ## Values -/

/-- The texts of items with a comma between them. -/
def commaSeparated (texts : List String) : String :=
  ",".intercalate texts

/-- Brackets around texts. -/
def enclosed (opening closing : Char) (text : String) : String :=
  (String.singleton opening ++ text).push closing

mutual

/-- A value without blanks. -/
def Value.compact : Value → String
  | .null => "null"
  | .bool b => if b then "true" else "false"
  | .number n => n.text
  | .string s => quote s
  | .array items => enclosed '[' ']' (commaSeparated (compactItems items))
  | .object members => enclosed '\x7b' '\x7d' (commaSeparated (compactMembers members))

/-- Items without blanks. -/
def compactItems : List Value → List String
  | [] => []
  | v :: vs => v.compact :: compactItems vs

/-- Members without blanks. -/
def compactMembers : List (String × Value) → List String
  | [] => []
  | (key, v) :: ms => (quote key ++ ":" ++ v.compact) :: compactMembers ms

end

/-- A line end and the indentation of a level. -/
def freshLine (level : Nat) : String :=
  "\n".pushn ' ' (2 * level)

/-- Texts inside brackets on the given level, each on a line of its own one level further in; empty
brackets stay on one line. -/
def enclosedLines (opening closing : Char) (level : Nat) (texts : List String) : String :=
  match texts with
  | [] => enclosed opening closing ""
  | texts =>
    enclosed opening closing
      (commaSeparated (texts.map (freshLine (level + 1) ++ ·)) ++ freshLine level)

mutual

/-- A value that starts on the given level of indentation. -/
def Value.prettyAt (level : Nat) : Value → String
  | .null => "null"
  | .bool b => if b then "true" else "false"
  | .number n => n.text
  | .string s => quote s
  | .array items => enclosedLines '[' ']' level (prettyItems (level + 1) items)
  | .object members => enclosedLines '\x7b' '\x7d' level (prettyMembers (level + 1) members)

/-- Items on the given level of indentation. -/
def prettyItems (level : Nat) : List Value → List String
  | [] => []
  | v :: vs => v.prettyAt level :: prettyItems level vs

/-- Members on the given level of indentation. -/
def prettyMembers (level : Nat) : List (String × Value) → List String
  | [] => []
  | (key, v) :: ms => (quote key ++ ": " ++ v.prettyAt level) :: prettyMembers level ms

end

/-- A value with one item or member a line. -/
def Value.pretty (v : Value) : String :=
  v.prettyAt 0

end ModuleMap.Json
