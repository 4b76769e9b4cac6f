import WhereClause.Operator.Basic
import WhereClause.Text.Join
import WhereClause.Value.Basic

/-!
# Nodes

A node is a part of a bracketed clause. A group is one pair of brackets, which holds operators and
operands side by side; a list holds values only.
-/

namespace WhereClause

/-- A part of a bracketed clause. -/
inductive Node
  /-- A leaf. -/
  | operand (operand : Operand)
  /-- An operator, where it stands in the clause. -/
  | operator (operator : Operator)
  /-- The `AND` between the bounds of a `BETWEEN`. -/
  | separator
  /-- A list of values. -/
  | list (nodes : List Node)
  /-- A pair of brackets. -/
  | group (nodes : List Node)
deriving Repr, Inhabited

namespace Node

/-- The nodes inside of a group or a list. -/
def children? : Node → Option (List Node)
  | .list nodes => some nodes
  | .group nodes => some nodes
  | _ => none

/-- A group of one node is that node. -/
def collapse : List Node → Node
  | [node] => node
  | nodes => .group nodes

/-! ## Text -/

mutual

/-- The characters of a node. -/
def write : Node → List Char
  | .operand x => x.write
  | .operator op => op.symbol.toList
  | .separator => "AND".toList
  | .list nodes => Text.parenthesized (Text.joinWith [',', ' '] (writeAll nodes))
  | .group nodes => Text.parenthesized (Text.joinWith [' '] (writeAll nodes))

/-- The characters of each node. -/
def writeAll : List Node → List (List Char)
  | [] => []
  | node :: rest => node.write :: writeAll rest

end

/-- The text of a node. -/
def render (node : Node) : String :=
  String.ofList node.write

/-! ## Values -/

mutual

/-- A node as nested arrays. -/
def toValue : Node → Value
  | .operand x => x.toValue
  | .operator op => .string op.symbol
  | .separator => .string "AND"
  | .list nodes => .array (toValues nodes)
  | .group nodes => .array (toValues nodes)

/-- Each node as nested arrays. -/
def toValues : List Node → List Value
  | [] => []
  | node :: rest => node.toValue :: toValues rest

end

end Node

end WhereClause
