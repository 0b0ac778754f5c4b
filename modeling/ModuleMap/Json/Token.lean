/-!
# JSON tokens

A text is cut into tokens from the left, each with the line on which it starts.  What is no token
ends the list as one last token that says what is wrong, so that whoever reads the tokens can report
an earlier fault first.

Strings keep their escaped code units apart (`Piece`), and a broken string says how it is broken in
two ways, because a string that is merely skipped is held to less than one that is read: its code
units need not form characters, and a line end inside it is not passed over.

* `Json.scan`: the token at the start of a text, and the text after it.
* `Json.tokens`: all tokens of a text.
* `Json.lineCount`: the number of lines of a text, which is the line of its end.
-/

namespace ModuleMap.Json

/-- A blank of JSON: space, tab, line feed or carriage return. -/
def isBlank (c : Char) : Bool :=
  c == ' ' || c == '\t' || c == '\n' || c == '\r'

/-- Why a token that has begun cannot be read to its end. -/
inductive Flaw where
  /-- The text ends inside the token. -/
  | cutOff
  /-- A character does not fit; `passed` line ends were read up to and with it. -/
  | misfit (passed : Nat)
  deriving DecidableEq, Repr

/-- A part of a string: a character, or a code unit of 16 bits from an escape. -/
inductive Piece where
  | char (c : Char)
  | unit (n : Nat)
  deriving DecidableEq, Repr

/-- The digits of an exponent and its sign. -/
structure Exponent where
  negative : Bool
  digits : List Nat
  deriving DecidableEq, Repr

/-- A number as it is written.  There is a digit before the point, one after it if it has a point,
and one in the exponent if it has an exponent. -/
structure Literal where
  negative : Bool
  whole : List Nat
  fraction : List Nat
  exponent : Option Exponent
  deriving DecidableEq, Repr

/-- The tokens. -/
inductive Token where
  | openBrace
  | closeBrace
  | openBracket
  | closeBracket
  | colon
  | comma
  | null
  | bool (b : Bool)
  | number (n : Literal)
  | string (pieces : List Piece)
  /-- A character with which no token begins. -/
  | stray
  /-- A word that begins like `null`, `true` or `false`. -/
  | brokenWord (flaw : Flaw)
  | brokenNumber (flaw : Flaw)
  /-- A string up to its flaw, as it is for one who reads it and for one who skips it. -/
  | brokenString (pieces : List Piece) (flaw skipFlaw : Flaw)
  deriving DecidableEq, Repr

/-- The flaw of a token that ends where `rest` begins, before the end that it needs. -/
def flawAt : List Char → Flaw
  | [] => .cutOff
  | c :: _ => .misfit (if c = '\n' then 1 else 0)

/-! ## Words -/

/-- The token of a word whose first letter has been read and whose other letters are given. -/
def scanWord (whole : Token) : List Char → List Char → Token × List Char
  | [], rest => (whole, rest)
  | _ :: _, [] => (.brokenWord .cutOff, [])
  | w :: ws, c :: cs => if c = w then scanWord whole ws cs else (.brokenWord (flawAt (c :: cs)), [])

/-! ## Numbers -/

/-- The value of a decimal digit. -/
def digitValue (c : Char) : Nat :=
  c.toNat - '0'.toNat

/-- The digits at the start of a text, and the rest. -/
def scanDigits : List Char → List Nat × List Char
  | [] => ([], [])
  | c :: cs =>
    if c.isDigit then (digitValue c :: (scanDigits cs).1, (scanDigits cs).2) else ([], c :: cs)

/-- The exponent at the start of a text, if there is one. -/
def scanExponent : List Char → Except Flaw (Option Exponent × List Char)
  | c :: cs =>
    if c = 'e' ∨ c = 'E' then
      let (negative, after) :=
        match cs with
        | '+' :: ds => (false, ds)
        | '-' :: ds => (true, ds)
        | ds => (false, ds)
      match scanDigits after with
      | ([], rest) => .error (flawAt rest)
      | (digits, rest) => .ok (some ⟨negative, digits⟩, rest)
    else .ok (none, c :: cs)
  | [] => .ok (none, [])

/-- The digits after a point at the start of a text, if there is one. -/
def scanFraction : List Char → Except Flaw (List Nat × List Char)
  | '.' :: cs =>
    match scanDigits cs with
    | ([], rest) => .error (flawAt rest)
    | (digits, rest) => .ok (digits, rest)
  | cs => .ok ([], cs)

/-- The digits before the point.  After a leading zero there may be no other digit. -/
def scanWhole (cs : List Char) : Except Flaw (List Nat × List Char) :=
  match scanDigits cs with
  | ([], rest) => .error (flawAt rest)
  | (0 :: _ :: _, _) => .error (.misfit 0)
  | (digits, rest) => .ok (digits, rest)

/-- The number after its sign. -/
def scanNumber (negative : Bool) (cs : List Char) : Token × List Char :=
  let literal : Except Flaw (Literal × List Char) := do
    let (whole, cs) ← scanWhole cs
    let (fraction, cs) ← scanFraction cs
    let (exponent, cs) ← scanExponent cs
    return (⟨negative, whole, fraction, exponent⟩, cs)
  match literal with
  | .ok (n, rest) => (.number n, rest)
  | .error flaw => (.brokenNumber flaw, [])

/-! ## Strings -/

/-- The value of a hexadecimal digit. -/
def hexValue? (c : Char) : Option Nat :=
  if c.isDigit then some (digitValue c)
  else if 'a' ≤ c ∧ c ≤ 'f' then some (c.toNat - 'a'.toNat + 10)
  else if 'A' ≤ c ∧ c ≤ 'F' then some (c.toNat - 'A'.toNat + 10)
  else none

/-- The characters within the first `n` bytes of a text, one that is cut through among them, if the
text has that many bytes. -/
def charsInBytes? : Nat → List Char → Option (List Char)
  | 0, _ => some []
  | _ + 1, [] => none
  | n + 1, c :: cs => (charsInBytes? (n + 1 - c.utf8Size) cs).map (c :: ·)

/-- The flaw of an escape that needs four hexadecimal digits and has other characters. -/
def hexFlaw (cs : List Char) : Flaw :=
  match charsInBytes? 4 cs with
  | none => .cutOff
  | some bad => .misfit (bad.count '\n')

/-- The code unit of four hexadecimal digits. -/
def hexUnit? (a b c d : Char) : Option Nat := do
  return (((← hexValue? a) * 16 + (← hexValue? b)) * 16 + (← hexValue? c)) * 16 + (← hexValue? d)

/-- The character that a backslash and a letter stand for. -/
def shortEscape? : Char → Option Char
  | '"' => some '"'
  | '\\' => some '\\'
  | '/' => some '/'
  | 'b' => some '\x08'
  | 'f' => some '\x0c'
  | 'n' => some '\n'
  | 'r' => some '\r'
  | 't' => some '\t'
  | _ => none

/-- The string whose opening quote has been read and whose first pieces are given, last one
first. -/
def scanString (pieces : List Piece) : List Char → Token × List Char
  | [] => (.brokenString pieces.reverse .cutOff .cutOff, [])
  | '"' :: rest => (.string pieces.reverse, rest)
  | ['\\'] => (.brokenString pieces.reverse .cutOff .cutOff, [])
  | '\\' :: 'u' :: a :: b :: c :: d :: rest =>
    match hexUnit? a b c d with
    | some n => scanString (.unit n :: pieces) rest
    | none =>
      let flaw := hexFlaw (a :: b :: c :: d :: rest)
      (.brokenString pieces.reverse flaw flaw, [])
  | '\\' :: 'u' :: rest =>
    let flaw := hexFlaw rest
    (.brokenString pieces.reverse flaw flaw, [])
  | '\\' :: e :: rest =>
    match shortEscape? e with
    | some c => scanString (.char c :: pieces) rest
    | none =>
      let flaw := flawAt (e :: rest)
      (.brokenString pieces.reverse flaw flaw, [])
  | c :: rest =>
    if c < ' ' then (.brokenString pieces.reverse (flawAt (c :: rest)) (.misfit 0), [])
    else scanString (.char c :: pieces) rest

/-! ## All tokens -/

/-- The token that begins with the given character, and the text after it.  After what is no token
nothing is left. -/
def scan (c : Char) (cs : List Char) : Token × List Char :=
  match c with
  | '\x7b' => (.openBrace, cs)
  | '\x7d' => (.closeBrace, cs)
  | '[' => (.openBracket, cs)
  | ']' => (.closeBracket, cs)
  | ':' => (.colon, cs)
  | ',' => (.comma, cs)
  | 'n' => scanWord .null ['u', 'l', 'l'] cs
  | 't' => scanWord (.bool true) ['r', 'u', 'e'] cs
  | 'f' => scanWord (.bool false) ['a', 'l', 's', 'e'] cs
  | '"' => scanString [] cs
  | '-' => scanNumber true cs
  | _ => if c.isDigit then scanNumber false (c :: cs) else (.stray, [])

/-- A token and the line on which it starts. -/
structure Placed where
  line : Nat
  token : Token
  deriving DecidableEq, Repr

/-- At most `fuel` steps of cutting a text whose first character is on the given line.  Each step
takes at least one character. -/
def tokensFrom : Nat → Nat → List Char → List Placed
  | 0, _, _ => []
  | _ + 1, _, [] => []
  | fuel + 1, line, c :: cs =>
    if isBlank c then tokensFrom fuel (if c = '\n' then line + 1 else line) cs
    else
      let (token, rest) := scan c cs
      ⟨line, token⟩ :: tokensFrom fuel line rest

/-- The tokens of a text, with their lines counted from one. -/
def tokens (text : List Char) : List Placed :=
  tokensFrom text.length 1 text

/-- The number of lines of a text. -/
def lineCount (text : List Char) : Nat :=
  1 + text.count '\n'

end ModuleMap.Json
