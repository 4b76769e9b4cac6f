import WhereClause.Item.Basic

/-!
# Phrases

A phrase is a part of a clause that is one value: a tree, the same tree with each operation in its
own group, and a place. The tree and the groups are built side by side.

The parts of an open group are phrases, operators and separators. Their order says what may follow:
a phrase only where an operand is lacking, and an operator between operands only where none is.
-/

namespace WhereClause

/-! ## Phrases -/

/-- A part of a clause that is one value. -/
structure Phrase where
  /-- The value with each operation in its own group. -/
  node : Node
  /-- The value as a tree. -/
  expr : Expr
  /-- Where the value stands. -/
  span : Span
deriving Repr, Inhabited

namespace Phrase

/-- The phrase of an operand. -/
def ofOperand (operand : Operand) (span : Span) : Phrase :=
  ⟨.operand operand, .operand operand, span⟩

/-- The phrase of a literal list. -/
def ofElements (elements : List Element) (span : Span) : Phrase :=
  ⟨.list (Element.toNodes elements), .list (Element.toExprs elements), span⟩

/-- An operator before its operand. -/
def unary (op : Operator) (span : Span) (x : Phrase) : Phrase :=
  ⟨.group [.operator op, x.node], .operation op [x.expr], span.merge x.span⟩

/-- An operator between its operands. -/
def binary (op : Operator) (span : Span) (x y : Phrase) : Phrase :=
  ⟨.group [x.node, .operator op, y.node], .operation op [x.expr, y.expr],
    (span.merge x.span).merge y.span⟩

/-- An operator between a value and two bounds. -/
def ternary (op : Operator) (span : Span) (x low high : Phrase) : Phrase :=
  ⟨.group [x.node, .operator op, low.node, .separator, high.node],
    .operation op [x.expr, low.expr, high.expr],
    ((span.merge x.span).merge low.span).merge high.span⟩

/-- What a phrase contributes to a list: the elements of a list, or itself. -/
def elements (x : Phrase) : List Node × List Expr :=
  match x.node, x.expr with
  | .list nodes, .list items => (nodes, items)
  | node, expr => ([node], [expr])

/-- The list of two operands of a comma, in which lists are spliced. -/
def join (x y : Phrase) : Phrase :=
  ⟨.list (x.elements.1 ++ y.elements.1), .list (x.elements.2 ++ y.elements.2),
    x.span.merge y.span⟩

end Phrase

/-! ## Parts of a group -/

/-- A part of an open group. -/
inductive Part
  /-- A value. -/
  | phrase (phrase : Phrase)
  /-- An operator. -/
  | operator (operator : Operator) (span : Span)
  /-- The `AND` of a `BETWEEN`. -/
  | separator (span : Span)
deriving Repr, Inhabited

namespace Part

/-- Where the part stands. -/
def span : Part → Span
  | .phrase x => x.span
  | .operator _ span => span
  | .separator span => span

/-- Whether an operand is lacking after the parts, which are given latest first. -/
def lacksOperand : List Part → Bool
  | .phrase _ :: _ => false
  | _ => true

/-- The `BETWEEN` to which a separator after the parts belongs, past `inner` others that have their
own; the parts are given latest first. -/
def betweenOf? (inner : Nat) : List Part → Option (Operator × Span)
  | [] => none
  | .separator _ :: rest => betweenOf? (inner + 1) rest
  | .operator .between span :: rest =>
    match inner with
    | 0 => some (.between, span)
    | inner + 1 => betweenOf? inner rest
  | _ :: rest => betweenOf? inner rest

/-- The operator that lacks an operand after the parts, which are given latest first. -/
def lacking? : List Part → Option (Operator × Span)
  | .operator op span :: _ => some (op, span)
  | .separator _ :: rest => betweenOf? 0 rest
  | _ => none

/-! ## The operator that lacks an operand -/

theorem mem_of_betweenOf? {inner : Nat} {parts : List Part} {found : Operator × Span}
    (h : betweenOf? inner parts = some found) : .operator found.1 found.2 ∈ parts := by
  fun_induction betweenOf? inner parts with
  | case1 => cases h
  | case3 =>
    cases h
    exact List.mem_cons_self
  | case2 | case4 | case5 =>
    rename_i ih
    exact List.mem_cons_of_mem _ (ih h)

theorem mem_of_lacking? {parts : List Part} {found : Operator × Span}
    (h : lacking? parts = some found) : .operator found.1 found.2 ∈ parts := by
  unfold lacking? at h
  split at h
  · cases h
    exact List.mem_cons_self
  · exact List.mem_cons_of_mem _ (mem_of_betweenOf? h)
  · cases h

end Part

end WhereClause
