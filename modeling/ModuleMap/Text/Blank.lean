/-!
# Blank characters

Three sets of characters count as blank in this library, and they are not the same: JSON has four
blanks (`Json.isBlank`), while a document of blanks alone and the text between a trailing comma and
its bracket are judged by the `White_Space` property of Unicode, which this file tabulates.
-/

namespace ModuleMap.Text

/-- The Unicode property `White_Space`. -/
def isBlank (c : Char) : Bool :=
  ('\t' ≤ c && c ≤ '\r') || c == ' ' || c == '\u0085' || c == '\u00A0' || c == '\u1680' ||
  ('\u2000' ≤ c && c ≤ '\u200A') || c == '\u2028' || c == '\u2029' || c == '\u202F' ||
  c == '\u205F' || c == '\u3000'

end ModuleMap.Text
