/-!
# The shortest decimal of a double

A finite double is a whole number times a power of two, and every real number between the midpoints
to its two neighbours reads back as it (the midpoints too where the whole number is even).  Its
shortest decimal is the one of fewest digits in that interval; of two, the nearer one.

* `Binary64.ofBits`: sign, whole number and exponent of a double from its 64 bits.
* `Binary64.interval`: the reals that read back as the double, as a quotient of whole numbers.
* `Binary64.shortest`: the shortest decimal, as a whole number and a power of ten.
-/

namespace ModuleMap

/-- The finite double `± significand * 2 ^ exponent`. -/
structure Binary64 where
  negative : Bool
  significand : Nat
  exponent : Int
  deriving DecidableEq, Repr

namespace Binary64

/-- The double of the given 64 bits: a sign, eleven bits of exponent, and the fraction, before which
a one is implied unless the exponent bits are zero. -/
def ofBits (bits : UInt64) : Binary64 :=
  let n := bits.toNat
  let biased : Nat := n / Nat.pow 2 52 % Nat.pow 2 11
  let fraction : Nat := n % Nat.pow 2 52
  let negative : Bool := n / Nat.pow 2 63 = 1
  if biased = 0 then ⟨negative, fraction, -1074⟩
  else ⟨negative, Nat.pow 2 52 + fraction, (biased : Int) - 1075⟩

/-- A decimal `digits * 10 ^ exponent`. -/
structure Decimal where
  digits : Nat
  exponent : Int
  deriving DecidableEq, Repr

/-- The reals from `low / unit` to `high / unit`, around `middle / unit`; `closed` says whether the
ends belong to them. -/
structure Interval where
  low : Nat
  middle : Nat
  high : Nat
  unit : Nat
  closed : Bool

/-- The reals that read back as the absolute value of the double.  Below a power of two the spacing
halves. -/
def interval (x : Binary64) : Interval :=
  let m := x.significand
  let below := if m = Nat.pow 2 52 ∧ -1074 < x.exponent then 1 else 2
  let quarter := x.exponent - 2
  let scale := Nat.pow 2 quarter.toNat
  ⟨(4 * m - below) * scale, 4 * m * scale, (4 * m + 2) * scale, Nat.pow 2 (-quarter).toNat, m % 2 = 0⟩

/-- The power of ten that is at most the middle of the interval, where that is not zero, while ten
times it is more. -/
def magnitude (i : Interval) : Int :=
  if i.unit ≤ i.middle then (Nat.toDigits 10 (i.middle / i.unit)).length - 1
  else
    let n := (Nat.toDigits 10 (i.unit / i.middle)).length
    if i.middle * Nat.pow 10 (n - 1) < i.unit then -n else 1 - n

/-- How `c * 10 ^ e` compares with `n / unit`. -/
def compareWith (c : Nat) (e : Int) (n unit : Nat) : Ordering :=
  compare (c * Nat.pow 10 e.toNat * unit) (n * Nat.pow 10 (-e).toNat)

/-- Of the two neighbours of the middle on the grid of multiples of `10 ^ e`, the one to print: the
nearer one of those in the interval, and of two equally near ones the even one. -/
def onGrid? (i : Interval) (e : Int) : Option Decimal :=
  let floor := i.middle * Nat.pow 10 (-e).toNat / (i.unit * Nat.pow 10 e.toNat)
  let down :=
    match compareWith floor e i.low i.unit with
    | .gt => true
    | .eq => i.closed
    | .lt => false
  let up :=
    match compareWith (floor + 1) e i.high i.unit with
    | .lt => true
    | .eq => i.closed
    | .gt => false
  match down, up with
  | false, false => none
  | true, false => some ⟨floor, e⟩
  | false, true => some ⟨floor + 1, e⟩
  | true, true =>
    match compareWith (2 * floor + 1) e (2 * i.middle) i.unit with
    | .gt => some ⟨floor, e⟩
    | .lt => some ⟨floor + 1, e⟩
    | .eq => some ⟨floor + floor % 2, e⟩

/-- The shortest decimal that reads back as the absolute value of the double: the one on the first
of the grids of one digit, two digits, and so on that has a point in the interval.  Seventeen digits
always suffice. -/
def shortest (x : Binary64) : Decimal :=
  if x.significand = 0 then ⟨0, 0⟩
  else
    let i := x.interval
    ((List.range 17).findSome? fun (n : Nat) => onGrid? i (magnitude i - n)).getD ⟨0, 0⟩

end Binary64

end ModuleMap
