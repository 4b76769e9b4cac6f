import WhereClause.Phrase.Tiers
import WhereClause.Proofs.Grammar

/-!
# The layout of a tree

The two halves of a phrase are built side by side. They stay in step: the node of a phrase is always
the layout of its tree, so that a phrase is a list in one half exactly if it is one in the other.
-/

namespace WhereClause

namespace Expr

/-- An operator between, before or around the nodes of its operands. -/
def arrange (op : Operator) : List Node → List Node
  | [x] => [.operator op, x]
  | [x, y] => [x, .operator op, y]
  | [x, low, high] => [x, .operator op, low, .separator, high]
  | nodes => .operator op :: nodes

mutual

/-- The tree with each operation in its own group. -/
def layout : Expr → Node
  | .operand x => .operand x
  | .list items => .list (layoutAll items)
  | .operation op operands => .group (arrange op (layoutAll operands))

/-- The layout of each tree. -/
def layoutAll : List Expr → List Node
  | [] => []
  | e :: rest => e.layout :: layoutAll rest

end

theorem layoutAll_append (xs ys : List Expr) :
    layoutAll (xs ++ ys) = layoutAll xs ++ layoutAll ys := by
  induction xs with
  | nil => rfl
  | cons e rest ih => simp [layoutAll, ih]

end Expr

namespace Element

mutual

theorem layout_toExpr : ∀ e : Element, e.toExpr.layout = e.toNode
  | .operand _ => rfl
  | .list elements => by
    rw [toExpr, toNode, Expr.layout, layoutAll_toExprs elements]

theorem layoutAll_toExprs : ∀ es : List Element, Expr.layoutAll (toExprs es) = toNodes es
  | [] => rfl
  | e :: rest => by
    rw [toExprs, toNodes, Expr.layoutAll, layout_toExpr e, layoutAll_toExprs rest]

end

end Element

namespace Phrase

/-- The node of the phrase is the layout of its tree. -/
def LaidOut (x : Phrase) : Prop :=
  x.node = x.expr.layout

variable {op : Operator} {span : Span} {x y z : Phrase}

theorem laidOut_ofOperand (operand : Operand) (span : Span) : (ofOperand operand span).LaidOut := by
  simp [LaidOut, ofOperand, Expr.layout]

theorem laidOut_ofElements (elements : List Element) (span : Span) :
    (ofElements elements span).LaidOut := by
  simp [LaidOut, ofElements, Expr.layout, Element.layoutAll_toExprs]

theorem LaidOut.unary (hx : x.LaidOut) : (unary op span x).LaidOut := by
  simp [LaidOut, Phrase.unary, Expr.layout, Expr.layoutAll, Expr.arrange, ← show x.node = _ from hx]

theorem LaidOut.binary (hx : x.LaidOut) (hy : y.LaidOut) : (binary op span x y).LaidOut := by
  simp [LaidOut, Phrase.binary, Expr.layout, Expr.layoutAll, Expr.arrange,
    ← show x.node = _ from hx, ← show y.node = _ from hy]

theorem LaidOut.ternary (hx : x.LaidOut) (hy : y.LaidOut) (hz : z.LaidOut) :
    (ternary op span x y z).LaidOut := by
  simp [LaidOut, Phrase.ternary, Expr.layout, Expr.layoutAll, Expr.arrange,
    ← show x.node = _ from hx, ← show y.node = _ from hy, ← show z.node = _ from hz]

theorem LaidOut.elements (hx : x.LaidOut) :
    x.elements = (Expr.layoutAll x.expr.elements, x.expr.elements) := by
  obtain ⟨node, expr, span⟩ := x
  obtain rfl : node = expr.layout := hx
  cases expr <;> simp [Phrase.elements, Expr.elements, Expr.layout, Expr.layoutAll]

theorem LaidOut.join (hx : x.LaidOut) (hy : y.LaidOut) : (join x y).LaidOut := by
  simp [LaidOut, Phrase.join, hx.elements, hy.elements, Expr.layout, Expr.layoutAll_append]

/-! ## Two operands -/

/-- The tree of two operands is the one of the grammar. -/
theorem LaidOut.applyBinary (hx : x.LaidOut) (hy : y.LaidOut)
    (h : Part.applyBinary op span x y = .ok z) :
    z.LaidOut ∧ Expr.binary? op x.expr y.expr = some z.expr := by
  unfold Part.applyBinary at h
  split at h
  · split at h
    · rename_i hl
      cases h
      exact ⟨hx.binary hy, by simp [Expr.binary?, hl, Phrase.binary]⟩
    · cases h
  · cases h
    exact ⟨hx.join hy, by simp [Expr.binary?, Phrase.join, hx.elements, hy.elements]⟩
  · rename_i hi hc
    cases h
    refine ⟨hx.binary hy, ?_⟩
    unfold Expr.binary?
    split
    · exact absurd rfl hi
    · exact absurd rfl hc
    · rfl

/-- Where the grammar has a tree for two operands, they make a phrase. -/
theorem exists_applyBinary {e : Expr} (hx : x.LaidOut) (hy : y.LaidOut)
    (h : Expr.binary? op x.expr y.expr = some e) :
    ∃ z, Part.applyBinary op span x y = .ok z ∧ z.LaidOut ∧ z.expr = e := by
  have ⟨z, hz⟩ : ∃ z, Part.applyBinary op span x y = .ok z := by
    cases op with
    | isIn =>
      by_cases hl : y.expr.isList = true
      · exact ⟨_, if_pos hl⟩
      · simp [Expr.binary?, hl] at h
    | _ => exact ⟨_, rfl⟩
  obtain ⟨hl, hb⟩ := hx.applyBinary hy hz
  exact ⟨z, hz, hl, Option.some.inj (hb.symm.trans h)⟩

end Phrase

end WhereClause
