import ModuleMap.Json.Token
import ModuleMap.Json.Value

/-!
# The value of a JSON number

A whole number of 64 bits keeps its value.  Any other number becomes a double in steps that this
file fixes: as many leading digits as fit 64 bits form a whole number, which is rounded to a double
and then multiplied or divided by a power of ten, rounding again.  Later digits of the whole part
count as zeros; from the first digit of the fraction that does not fit, the fraction is cut off.

* `Json.significand`: the leading digits of a number that fit, and the power of ten that goes with
  them.
* `Json.scale?`: a double times a power of ten, if the result is finite.
* `Json.Literal.number?`: the number that is written, if a double can hold it.
-/

namespace ModuleMap.Json

/-- One more than the greatest whole number of 64 bits. -/
def wordSize : Nat := Nat.pow 2 64

/-- The digits read onto `n` as long as the result is below `wordSize`, and the digits left. -/
def takeDigits (n : Nat) : List Nat → Nat × List Nat
  | [] => (n, [])
  | d :: ds => if n * 10 + d < wordSize then takeDigits (n * 10 + d) ds else (n, d :: ds)

/-- The digits of a number that fit a word, and the power of ten that they are to be multiplied by
when the exponent is left out of account. -/
def significand (n : Literal) : Nat × Int :=
  let (whole, left) := takeDigits 0 n.whole
  let (all, cut) := takeDigits whole n.fraction
  (all, (left.length : Int) - (n.fraction.length - cut.length : Nat))

/-- The double nearest to `10 ^ k`. -/
def powerOfTen (k : Nat) : Float :=
  Float.ofScientific 1 false k

/-- The greatest power of ten that is a finite double. -/
def greatestPower : Nat := 308

/-- The double `f` divided by `10 ^ k`, in at most `steps` steps that each divide by a power of ten
no greater than the greatest. -/
def divide (f : Float) (k : Nat) : Nat → Float
  | 0 => f
  | steps + 1 =>
    if k ≤ greatestPower then f / powerOfTen k
    else if f == 0 then f
    else divide (f / powerOfTen greatestPower) (k - greatestPower) steps

/-- The double `f` times `10 ^ e`, if that is finite.  Four divisions by the greatest power take any
word to zero. -/
def scale? (f : Float) (e : Int) : Option Float :=
  match e with
  | .ofNat k =>
    if k ≤ greatestPower then
      let product := f * powerOfTen k
      if product.isInf then none else some product
    else if f == 0 then some f
    else none
  | .negSucc k => some (divide f (k + 1) 4)

/-- The greatest exponent that is read; a greater one is as good as infinite. -/
def greatestExponent : Nat := Nat.pow 2 31 - 1

/-- The value of a list of decimal digits. -/
def ofDigits (ds : List Nat) : Nat :=
  ds.foldl (fun n d => n * 10 + d) 0

/-- The absolute value of a number as a double, if it is finite. -/
def Literal.magnitude? (n : Literal) : Option Float :=
  let (word, power) := significand n
  let f := word.toUInt64.toFloat
  match n.exponent with
  | none => scale? f power
  | some e =>
    let written := ofDigits e.digits
    if written ≤ greatestExponent then
      scale? f (if e.negative then power - written else power + written)
    else if word = 0 || e.negative then some 0
    else none

/-- The number that is written, or nothing if no finite double is near it.  A negative zero is a
double. -/
def Literal.number? (n : Literal) : Option Number :=
  let plain := n.fraction.isEmpty && n.exponent.isNone
  let whole := ofDigits n.whole
  if plain && !n.negative && whole < wordSize then some (.natural whole)
  else if plain && n.negative && 0 < whole && whole ≤ wordSize / 2 then some (.negated whole)
  else n.magnitude?.map fun f => .double (if n.negative then -f else f).toBits

end ModuleMap.Json
