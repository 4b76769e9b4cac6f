import WhereClause.Item.Basic

/-!
# Groups as written

The items of a clause as a node that keeps the parentheses of the clause and knows no precedence.
Parentheses around a single node are dropped.
-/

namespace WhereClause

/-- Nodes that are being grouped. -/
structure Grouping where
  /-- The nodes of the innermost open group, latest first. -/
  inner : List Node := []
  /-- The nodes of the open groups around it, innermost first, each latest first. -/
  outer : List (List Node) := []
deriving Repr, Inhabited

namespace Grouping

/-- Adds a node to the innermost group. -/
def push (grouping : Grouping) (node : Node) : Grouping :=
  { grouping with inner := node :: grouping.inner }

/-- Reads an item. -/
def step (grouping : Grouping) : Item → Grouping
  | .opening _ => { inner := [], outer := grouping.inner :: grouping.outer }
  | .closing _ =>
    { inner := .collapse grouping.inner.reverse :: grouping.outer.headD []
      outer := grouping.outer.tail }
  | .operand x _ => grouping.push (.operand x)
  | .operator op _ => grouping.push (.operator op)
  | .separator _ => grouping.push .separator
  | .list elements _ => grouping.push (.list (Element.toNodes elements))

end Grouping

/-- The node of a clause with its own parentheses. -/
def Node.ofItems (items : List Item) : Node :=
  (items.foldl Grouping.step {}).inner.headD (.group [])

end WhereClause
