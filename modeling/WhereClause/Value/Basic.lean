import WhereClause.Operand

/-!
# Values

What clauses are evaluated to: JSON values, in which integers and floats are apart. A float that is
not a number or infinite has no JSON form and becomes `null`, and a name becomes a string.
-/

namespace WhereClause

/-- A JSON value. -/
inductive Value
  /-- The missing value. -/
  | null
  /-- A truth value. -/
  | bool (value : Bool)
  /-- An integer. -/
  | integer (value : Int64)
  /-- A float. -/
  | float (value : Float)
  /-- A text. -/
  | string (text : String)
  /-- An array. -/
  | array (items : List Value)
  /-- An object, with its members in the order of their making. -/
  | object (members : List (String × Value))
deriving Repr, Inhabited

/-- The value of a literal. -/
def Literal.toValue : Literal → Value
  | .null => .null
  | .boolean value => .bool value
  | .integer n => .integer n
  | .float x => if x.isFinite then .float x else .null
  | .string text => .string text

/-- The value of an operand. -/
def Operand.toValue : Operand → Value
  | .literal value => value.toValue
  | .identifier name => .string name

end WhereClause
