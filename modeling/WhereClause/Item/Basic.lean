import WhereClause.Expr.Basic
import WhereClause.Node.Basic
import WhereClause.Span

/-!
# Items

An item is a token with its meaning in the clause. The whole clause stands between an opening and a
closing item of its own. The parenthesised text directly after an `IN` is one item, a literal list.
-/

namespace WhereClause

/-- An element of a literal list. -/
inductive Element
  /-- A value or a word. -/
  | operand (operand : Operand)
  /-- A list inside of the list. -/
  | list (elements : List Element)
deriving Repr, Inhabited

/-- A token with its meaning. -/
inductive Item
  /-- An opening parenthesis, or the beginning of the clause. -/
  | opening (span : Span)
  /-- A closing parenthesis, or the end of the clause. -/
  | closing (span : Span)
  /-- An operand. -/
  | operand (operand : Operand) (span : Span)
  /-- An operator. -/
  | operator (operator : Operator) (span : Span)
  /-- The `AND` of a `BETWEEN`. -/
  | separator (span : Span)
  /-- A literal list, from its opening to its closing parenthesis. -/
  | list (elements : List Element) (span : Span)
deriving Repr, Inhabited

namespace Element

mutual

/-- An element as a node. -/
def toNode : Element → Node
  | .operand x => .operand x
  | .list elements => .list (toNodes elements)

/-- The elements as nodes. -/
def toNodes : List Element → List Node
  | [] => []
  | e :: rest => e.toNode :: toNodes rest

end

mutual

/-- An element as a tree. -/
def toExpr : Element → Expr
  | .operand x => .operand x
  | .list elements => .list (toExprs elements)

/-- The elements as trees. -/
def toExprs : List Element → List Expr
  | [] => []
  | e :: rest => e.toExpr :: toExprs rest

end

/-- A list whose only element is a list is that list. -/
def collapse : List Element → List Element
  | [.list elements] => elements
  | elements => elements

end Element

end WhereClause
