/-!
# Text as UTF-8 bytes

File contents and paths are byte strings; names and documents are characters.  One machine reads
bytes into pieces, and both ways of reading are views of its answer.

* `encode`: the bytes of a text.
* `pieces`: the characters a byte string holds, with `none` for each maximal malformed part.
* `decode?`: strict reading, which refuses any malformed part.
* `decodeLossy`: reading that shows U+FFFD for each malformed part.
-/

namespace ModuleMap.Text

/-- The UTF-8 bytes of a text. -/
def encode (cs : List Char) : List UInt8 :=
  cs.flatMap String.utf8EncodeChar

@[simp] theorem encode_nil : encode [] = [] := rfl

@[simp] theorem encode_cons (c : Char) (cs : List Char) :
    encode (c :: cs) = String.utf8EncodeChar c ++ encode cs := rfl

@[simp] theorem encode_append (cs ds : List Char) : encode (cs ++ ds) = encode cs ++ encode ds :=
  List.flatMap_append

/-- A character that has begun: the bits read so far, how many bytes are still missing, and the
range in which the next byte must lie. -/
structure Begun where
  bits : Nat
  missing : Nat
  low : UInt8
  high : UInt8

/-- What a byte does where a character may begin. -/
inductive Lead where
  /-- The byte is a character of its own. -/
  | whole (c : Char)
  /-- The byte begins a character of several bytes. -/
  | begins (b : Begun)
  /-- No character begins with the byte. -/
  | malformed

/-- The role of a byte where a character may begin.  The range of the second byte excludes overlong
forms, surrogates and values above U+10FFFF. -/
def lead (b : UInt8) : Lead :=
  if b < 0x80 then .whole (Char.ofNat b.toNat)
  else if b < 0xC2 then .malformed
  else if b < 0xE0 then .begins ⟨b.toNat - 0xC0, 1, 0x80, 0xBF⟩
  else if b = 0xE0 then .begins ⟨0, 2, 0xA0, 0xBF⟩
  else if b = 0xED then .begins ⟨0xD, 2, 0x80, 0x9F⟩
  else if b < 0xF0 then .begins ⟨b.toNat - 0xE0, 2, 0x80, 0xBF⟩
  else if b = 0xF0 then .begins ⟨0, 3, 0x90, 0xBF⟩
  else if b < 0xF4 then .begins ⟨b.toNat - 0xF0, 3, 0x80, 0xBF⟩
  else if b = 0xF4 then .begins ⟨4, 3, 0x80, 0x8F⟩
  else .malformed

/-- The pieces of a byte string after the character that has begun, if one has.  A byte that cannot
go on ends the malformed part before it and is read afresh. -/
def piecesFrom : Option Begun → List UInt8 → List (Option Char)
  | none, [] => []
  | some _, [] => [none]
  | none, b :: bs =>
    match lead b with
    | .whole c => some c :: piecesFrom none bs
    | .begins s => piecesFrom (some s) bs
    | .malformed => none :: piecesFrom none bs
  | some s, b :: bs =>
    if s.low ≤ b ∧ b ≤ s.high then
      let bits := s.bits * 64 + (b.toNat - 0x80)
      if s.missing ≤ 1 then some (Char.ofNat bits) :: piecesFrom none bs
      else piecesFrom (some ⟨bits, s.missing - 1, 0x80, 0xBF⟩) bs
    else
      match lead b with
      | .whole c => none :: some c :: piecesFrom none bs
      | .begins s => none :: piecesFrom (some s) bs
      | .malformed => none :: none :: piecesFrom none bs

/-- The characters of a byte string, `none` standing for each maximal malformed part. -/
def pieces (bs : List UInt8) : List (Option Char) :=
  piecesFrom none bs

/-- The text of a byte string, if it is well-formed UTF-8. -/
def decode? (bs : List UInt8) : Option (List Char) :=
  (pieces bs).mapM id

/-- The text of a byte string, with U+FFFD for each maximal malformed part. -/
def decodeLossy (bs : List UInt8) : List Char :=
  (pieces bs).map (·.getD '\uFFFD')

end ModuleMap.Text
