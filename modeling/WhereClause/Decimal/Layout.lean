import WhereClause.Decimal.Shortest

/-!
# Layouts of decimals

A layout says how the digits of a float become text: up to which size they are written around a
point, and what stands for the values without digits. With a power of ten there is no plus sign, no
padding and no fraction after a single digit.
-/

namespace WhereClause.Decimal

/-- The decisions of a format for floats. -/
structure Layout where
  /-- The least power of ten that is written with a point alone. -/
  least : Int
  /-- The greatest power of ten that is written with a point alone. -/
  greatest : Int
  /-- The text of not-a-number. -/
  nan : String
  /-- The text of positive infinity. -/
  infinity : String
deriving DecidableEq, Repr

namespace Layout

/-- The digits around a point, with a digit on either side of it. -/
def positional (d : Digits) : List Char :=
  let whole := d.digits.take d.point.toNat
  let zeros := List.replicate (d.point.toNat - d.digits.length) '0'
  let fraction := List.replicate (-d.point).toNat '0' ++ d.digits.drop d.point.toNat
  (if d.point ≤ 0 then ['0'] else whole ++ zeros) ++ '.' ::
    (if d.digits.length ≤ d.point.toNat then ['0'] else fraction)

/-- One digit, the others after a point, and the power of ten. -/
def scientific (d : Digits) : List Char :=
  let fraction := d.digits.drop 1
  d.digits.take 1 ++ (if fraction.isEmpty then [] else '.' :: fraction) ++
    'e' :: (d.point - 1).repr.toList

/-- The text of a number that is not negative. -/
def magnitude (layout : Layout) (significand : Nat) (exponent : Int) (narrow : Bool) : List Char :=
  if significand = 0 then
    "0.0".toList
  else
    let d := shortest significand exponent narrow
    if layout.least ≤ d.point - 1 ∧ d.point - 1 ≤ layout.greatest then
      positional d
    else
      scientific d

/-- The text of a float. -/
def render (layout : Layout) (x : Float) : String :=
  match Parts.ofFloat x with
  | .nan => layout.nan
  | .infinite negative => (if negative then "-" else "") ++ layout.infinity
  | .finite negative significand exponent narrow =>
    (if negative then "-" else "") ++ String.ofList (layout.magnitude significand exponent narrow)

end Layout

end WhereClause.Decimal
