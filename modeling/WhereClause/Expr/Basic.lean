import WhereClause.Operator.Basic
import WhereClause.Operand
import WhereClause.Text.Join

/-!
# Expressions

An expression is a clause as a tree of operators and operands. In its text, every operation inside
of another expression stands in parentheses, so that precedence plays no part in it.
-/

namespace WhereClause

/-- A tree of operators and operands. -/
inductive Expr
  /-- A leaf. -/
  | operand (operand : Operand)
  /-- A list, such as the right side of `IN`. -/
  | list (items : List Expr)
  /-- An operator and its operands in order. -/
  | operation (operator : Operator) (operands : List Expr)
deriving Repr, Inhabited

namespace Expr

/-- The operator of an operation. -/
def operator? : Expr → Option Operator
  | .operation op _ => some op
  | _ => none

/-- Whether the expression is a list. -/
def isList : Expr → Bool
  | .list _ => true
  | _ => false

/-- The expression's parts as elements of a list: a list is spliced, any other is one element. -/
def elements : Expr → List Expr
  | .list items => items
  | e => [e]

/-! ## Text -/

/-- An operator between, before or around the texts of its operands. -/
def writeOperation (op : Operator) : List (List Char) → List Char
  | [x] => op.symbol.toList ++ ' ' :: x
  | [x, y] => x ++ ' ' :: op.symbol.toList ++ ' ' :: y
  | [x, low, high] =>
    x ++ ' ' :: op.symbol.toList ++ ' ' :: low ++ " AND ".toList ++ high
  | operands => op.symbol.toList ++ operands.flatMap (' ' :: ·)

mutual

/-- The characters of an expression. -/
def write : Expr → List Char
  | .operand x => x.write
  | .list items => Text.parenthesized (Text.joinWith [',', ' '] (writeAll items))
  | .operation op operands => writeOperation op (writeAll operands)

/-- The characters of each expression inside of another one. -/
def writeAll : List Expr → List (List Char)
  | [] => []
  | .operation op operands :: rest =>
    Text.parenthesized (write (.operation op operands)) :: writeAll rest
  | e :: rest => write e :: writeAll rest

end

/-- The text of an expression. -/
def render (e : Expr) : String :=
  String.ofList e.write

/-! ## Equality up to the sign of zero -/

mutual

/-- Equality of trees, in which floats are equal as numbers. -/
def same : Expr → Expr → Bool
  | .operand x, .operand y => x == y
  | .list xs, .list ys => sameAll xs ys
  | .operation op xs, .operation op' ys => op == op' && sameAll xs ys
  | _, _ => false

/-- Equality of lists of trees. -/
def sameAll : List Expr → List Expr → Bool
  | [], [] => true
  | x :: xs, y :: ys => same x y && sameAll xs ys
  | _, _ => false

end

instance : BEq Expr := ⟨same⟩

end Expr

end WhereClause
