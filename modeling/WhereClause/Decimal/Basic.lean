/-!
# Decimal numbers

A decimal number is a sign, a natural coefficient and a power of ten. This module reads decimals
from text and rounds them to the nearest float. The coefficient is exact, so the digits of a text
are rounded once.
-/

namespace WhereClause

/-- The number `± coefficient · 10 ^ exponent`. -/
structure Decimal where
  /-- Whether the sign is minus; zero has both signs. -/
  negative : Bool
  /-- The digits without sign and point. -/
  coefficient : Nat
  /-- The power of ten. -/
  exponent : Int
deriving DecidableEq, Repr

namespace Decimal

/-! ## Digits -/

/-- The value of a run of decimal digits. -/
def digitsValue (digits : List Char) : Nat :=
  digits.foldl (fun value c => 10 * value + (c.toNat - '0'.toNat)) 0

/-- The decimal digits of `n`, without leading zeros. -/
def digitsOf (n : Nat) : List Char :=
  Nat.toDigits 10 n

/-- Whether the text is one digit or more, and nothing else. -/
def isDigits (cs : List Char) : Bool :=
  !cs.isEmpty && cs.all Char.isDigit

/-- Takes an optional sign off the front: whether it was a minus, and the rest. -/
def takeSign : List Char → Bool × List Char
  | '-' :: rest => (true, rest)
  | '+' :: rest => (false, rest)
  | cs => (false, cs)

/-! ## Reading -/

/-- An optional sign and digits. -/
def readInt? (cs : List Char) : Option Int :=
  let (negative, digits) := takeSign cs
  if isDigits digits then
    some (if negative then -digitsValue digits else digitsValue digits)
  else
    none

/-- The power of ten at the end of a decimal: nothing, or a mark and an integer. -/
def readExponent? : List Char → Option Int
  | [] => some 0
  | c :: rest => if c = 'e' ∨ c = 'E' then readInt? rest else none

/-- An optional sign, digits with at most one point among or around them, and an optional power of
ten. -/
def read? (cs : List Char) : Option Decimal :=
  let (negative, body) := takeSign cs
  let whole := body.takeWhile Char.isDigit
  let (fraction, rest) :=
    match body.dropWhile Char.isDigit with
    | '.' :: rest => (rest.takeWhile Char.isDigit, rest.dropWhile Char.isDigit)
    | rest => ([], rest)
  if whole.isEmpty && fraction.isEmpty then
    none
  else
    (readExponent? rest).map fun power =>
      ⟨negative, digitsValue (whole ++ fraction), power - fraction.length⟩

/-! ## Rounding to floats -/

/-- Positive infinity. -/
def infinity : Float :=
  1.0 / 0.0

/-- The float nearest to `coefficient · 10 ^ exponent`. The number lies below `10 ^ top` and not
below `10 ^ (top - 1)`, so outside of the bounds it is infinite or zero whatever its digits. -/
def magnitude (coefficient : Nat) (exponent : Int) : Float :=
  let top := exponent + (digitsOf coefficient).length
  if coefficient = 0 ∨ top < -330 then
    0.0
  else if 310 < top then
    infinity
  else
    Float.ofScientific coefficient (decide (exponent < 0)) exponent.natAbs

/-- The float nearest to the decimal. -/
def toFloat (d : Decimal) : Float :=
  if d.negative then -magnitude d.coefficient d.exponent else magnitude d.coefficient d.exponent

/-- The names of values that no digits write, in lower case. -/
def named? (name : List Char) : Option Float :=
  if name = "inf".toList ∨ name = "infinity".toList then
    some infinity
  else if name = "nan".toList then
    some (0.0 / 0.0)
  else
    none

/-- The float that a text names: a decimal, rounded, or one of the names with an optional sign. -/
def readFloat? (cs : List Char) : Option Float :=
  match read? cs with
  | some d => some d.toFloat
  | none =>
    let (negative, name) := takeSign cs
    (named? (name.map Char.toLower)).map fun x => if negative then -x else x

end Decimal

end WhereClause
