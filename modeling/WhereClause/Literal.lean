import WhereClause.Decimal.Layout
import WhereClause.Text.Upper

/-!
# Literals

A literal is a scalar value of a clause. Quoted text is always a string; a bare word is a literal if
it names a constant or a number, and otherwise it is a name.
-/

namespace WhereClause

/-- A scalar value. -/
inductive Literal
  /-- The missing value. -/
  | null
  /-- A truth value. -/
  | boolean (value : Bool)
  /-- A 64-bit integer. -/
  | integer (value : Int64)
  /-- A floating-point number. -/
  | float (value : Float)
  /-- A text. -/
  | string (text : String)
deriving BEq, Repr, Inhabited

namespace Literal

/-- The integer that a word writes, if it fits 64 bits. -/
def integer? (word : String) : Option Int64 :=
  (Decimal.readInt? word.toList).bind fun n =>
    if Int64.minValue.toInt ≤ n ∧ n ≤ Int64.maxValue.toInt then some (Int64.ofInt n) else none

/-- The finite float that a word writes. -/
def float? (word : String) : Option Float :=
  (Decimal.readFloat? word.toList).filter Float.isFinite

/-- The literal that a bare word stands for: a constant in any case, an integer, or a finite float.
A word that stands for none is a name. -/
def ofWord? (word : String) : Option Literal :=
  if Text.eqIgnoringAsciiCase word "null" then
    some .null
  else if Text.eqIgnoringAsciiCase word "true" then
    some (.boolean true)
  else if Text.eqIgnoringAsciiCase word "false" then
    some (.boolean false)
  else
    match integer? word with
    | some n => some (.integer n)
    | none => (float? word).map .float

/-- The number with its sign changed. The least integer has no opposite, and other values have no
sign. -/
def negated? : Literal → Option Literal
  | .integer n => if n = Int64.minValue then none else some (.integer (-n))
  | .float x => some (.float (-x))
  | _ => none

/-- Floats are written with a point from `10⁻⁴` up to below `10¹⁶`. -/
def floatLayout : Decimal.Layout :=
  { least := -4, greatest := 15, nan := "NaN", infinity := "inf" }

/-- The text of a literal; a string is its own text. -/
def render : Literal → String
  | .null => "null"
  | .boolean value => if value then "true" else "false"
  | .integer n => n.toInt.repr
  | .float x => floatLayout.render x
  | .string text => text

end Literal

end WhereClause
