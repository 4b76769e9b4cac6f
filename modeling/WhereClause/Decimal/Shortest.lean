import WhereClause.Decimal.Basic

/-!
# Shortest decimals

The shortest decimal of a finite float is the one with the fewest digits among all decimals that
round to it, and the nearest of those to the float. It is found in exact arithmetic: for one digit,
two digits and so on, the two neighbours of the float on the grid of that many digits are tested
against the interval of reals that round to the float.
-/

namespace WhereClause.Decimal

/-! ## Floats as integers -/

/-- The power `2 ^ n`. -/
def twoTo (n : Nat) : Nat := Nat.pow 2 n

/-- The power `10 ^ n`. -/
def tenTo (n : Nat) : Nat := Nat.pow 10 n

/-- What the bits of a float stand for. -/
inductive Parts
  /-- Not a number. -/
  | nan
  /-- An infinity. -/
  | infinite (negative : Bool)
  /-- The number `± significand · 2 ^ exponent`. The float below it is half as far as the one above
  if `narrow` holds. -/
  | finite (negative : Bool) (significand : Nat) (exponent : Int) (narrow : Bool)
deriving DecidableEq, Repr

/-- Reads the fields of the 64-bit format. -/
def Parts.ofBits (bits : Nat) : Parts :=
  let negative : Bool := twoTo 63 ≤ bits
  let biased : Nat := bits / twoTo 52 % twoTo 11
  let fraction : Nat := bits % twoTo 52
  if biased = 2047 then
    if fraction = 0 then .infinite negative else .nan
  else if biased = 0 then
    .finite negative fraction (-1074) false
  else
    .finite negative (twoTo 52 + fraction) ((biased : Int) - 1075) (fraction == 0 && 1 < biased)

/-- The parts of a float. -/
def Parts.ofFloat (x : Float) : Parts :=
  .ofBits x.toBits.toNat

/-! ## Intervals of rounding -/

/-- The reals from `low` to `high` around `value`, all three over the denominator `unit`. -/
structure Interval where
  /-- Numerator of the lower end. -/
  low : Nat
  /-- Numerator of the value. -/
  value : Nat
  /-- Numerator of the upper end. -/
  high : Nat
  /-- The common denominator. -/
  unit : Nat
  /-- Whether the ends belong to the interval. -/
  closed : Bool
deriving DecidableEq, Repr

namespace Interval

/-- The reals that round to `significand · 2 ^ exponent`: half of the way to either neighbour, ends
included if the significand is even. -/
def around (significand : Nat) (exponent : Int) (narrow : Bool) : Interval :=
  let scale := twoTo (exponent - 2).toNat
  { low := (4 * significand - if narrow then 1 else 2) * scale
    value := 4 * significand * scale
    high := (4 * significand + 2) * scale
    unit := twoTo (2 - exponent).toNat
    closed := significand % 2 == 0 }

/-- The interval measured in units of `10 ^ power`. -/
def inUnitsOf (i : Interval) (power : Int) : Interval :=
  let scale := tenTo (-power).toNat
  { i with
    low := i.low * scale
    value := i.value * scale
    high := i.high * scale
    unit := i.unit * tenTo power.toNat }

/-- Whether the integer `n` lies in the interval. -/
def contains (i : Interval) (n : Nat) : Bool :=
  if i.closed then
    i.low ≤ n * i.unit && n * i.unit ≤ i.high
  else
    i.low < n * i.unit && n * i.unit < i.high

/-- Of the two integers around the value, the one in the interval; of two, the nearer, and the upper
one if both are equally near. -/
def nearest? (i : Interval) : Option Nat :=
  let below := i.value / i.unit
  if i.contains below && (!i.contains (below + 1) || 2 * (i.value % i.unit) < i.unit) then
    some below
  else if i.contains (below + 1) then
    some (below + 1)
  else
    none

/-- The least power of ten above the value. -/
def top (i : Interval) : Int :=
  if i.unit ≤ i.value then
    (digitsOf (i.value / i.unit)).length
  else
    let n := (digitsOf (i.unit / i.value)).length
    if i.unit ≤ i.value * tenTo (n - 1) then 2 - n else 1 - n

/-- The first integer found on the grids of `10 ^ power`, `10 ^ (power - 1)` and so on, with the
power of its grid. -/
def search (i : Interval) (power : Int) : Nat → Nat × Int
  | 0 => ((i.inUnitsOf power).value / (i.inUnitsOf power).unit, power)
  | tries + 1 =>
    match (i.inUnitsOf power).nearest? with
    | some n => (n, power)
    | none => i.search (power - 1) tries

end Interval

/-! ## Digits -/

/-- The number `0.d₁d₂d₃… · 10 ^ point`. -/
structure Digits where
  /-- The digits, the last of which is not zero. -/
  digits : List Char
  /-- The power of ten. -/
  point : Int
deriving DecidableEq, Repr

/-- The digits of `n · 10 ^ power`. -/
def Digits.ofNat (n : Nat) (power : Int) : Digits :=
  let digits := digitsOf n
  ⟨(digits.reverse.dropWhile (· == '0')).reverse, power + digits.length⟩

/-- The shortest decimal that rounds to `significand · 2 ^ exponent`; seventeen digits suffice for
every float. -/
def shortest (significand : Nat) (exponent : Int) (narrow : Bool) : Digits :=
  let i := Interval.around significand exponent narrow
  let (n, power) := i.search (i.top - 1) 17
  .ofNat n power

end WhereClause.Decimal
