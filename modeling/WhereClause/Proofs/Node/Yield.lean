import WhereClause.Proofs.Strategies

/-!
# The yield of a node

The yield of a node is the row of its leaves, from left to right: operands, operators and the `AND`s
of `BETWEEN`. A clause has two forms as a node. One keeps the parentheses of the clause, the other
one follows the precedence of the operators, and they are built in different ways. Both have the
yield of the items of the clause, but for the commas, which become lists in the second form: nothing
is lost, doubled or moved.
-/

namespace WhereClause

/-! ## Leaves -/

/-- A leaf of a node. -/
inductive Node.Leaf
  /-- An operand. -/
  | operand (operand : Operand)
  /-- An operator. -/
  | operator (operator : Operator)
  /-- The `AND` between the bounds of a `BETWEEN`. -/
  | separator
deriving Repr

/-- Whether the leaf is a comma. -/
def Node.Leaf.isComma : Node.Leaf → Bool
  | .operator op => op = .comma
  | _ => false

namespace Node

mutual

/-- The leaves of a node from left to right, at any depth. -/
def yield : Node → List Leaf
  | .operand x => [.operand x]
  | .operator op => [.operator op]
  | .separator => [.separator]
  | .list nodes => yieldAll nodes
  | .group nodes => yieldAll nodes

/-- The leaves of all nodes. -/
def yieldAll : List Node → List Leaf
  | [] => []
  | node :: rest => node.yield ++ yieldAll rest

end

theorem yieldAll_eq (nodes : List Node) : yieldAll nodes = nodes.flatMap yield := by
  induction nodes with
  | nil => rfl
  | cons node rest ih => rw [yieldAll, ih, List.flatMap_cons]

theorem yield_list (nodes : List Node) : (Node.list nodes).yield = nodes.flatMap yield := by
  rw [yield, yieldAll_eq]

theorem yield_group (nodes : List Node) : (Node.group nodes).yield = nodes.flatMap yield := by
  rw [yield, yieldAll_eq]

theorem yield_collapse (nodes : List Node) : (collapse nodes).yield = nodes.flatMap yield := by
  unfold collapse
  split
  · rw [List.flatMap_singleton]
  · exact yield_group nodes

end Node

open Node

/-- The leaves for which an item stands. A parenthesis stands for none. -/
def Item.yield : Item → List Leaf
  | .opening _ => []
  | .closing _ => []
  | .operand x _ => [.operand x]
  | .operator op _ => [.operator op]
  | .separator _ => [.separator]
  | .list elements _ => yieldAll (Element.toNodes elements)

/-! ## Groups as written -/

namespace Grouping

variable {w : List Item}

/-- An item that is no parenthesis is one more node. -/
theorem step_leaf (grouping : Grouping) {item : Item} (hl : item.isLeaf) :
    ∃ node, grouping.step item = grouping.push node ∧ node.yield = item.yield := by
  cases item with
  | opening | closing => cases hl
  | operand x span => exact ⟨_, rfl, rfl⟩
  | operator op span => exact ⟨_, rfl, rfl⟩
  | separator span => exact ⟨_, rfl, rfl⟩
  | list elements span => exact ⟨_, rfl, rfl⟩

/-- If the items of a group add nodes to it, then the group, when it closes, is one more node. -/
theorem exists_push_of_group (grouping : Grouping) (start stop : Span)
    (hw : ∀ grouping : Grouping, ∃ nodes,
      w.foldl step grouping = { grouping with inner := nodes ++ grouping.inner } ∧
        nodes.reverse.flatMap Node.yield = w.flatMap Item.yield) :
    ∃ node,
      (Item.opening start :: w ++ [Item.closing stop]).foldl step grouping = grouping.push node ∧
        node.yield = (Item.opening start :: w ++ [Item.closing stop]).flatMap Item.yield := by
  obtain ⟨nodes, hfold, hyield⟩ := hw (grouping.step (.opening start))
  refine ⟨collapse nodes.reverse, ?_, ?_⟩
  · rw [List.cons_append, List.foldl_cons, List.foldl_append, hfold]
    simp [step, push]
  · rw [yield_collapse, hyield]
    simp [Item.yield]

/-- Balanced items add nodes to the innermost group, and leave the groups around it alone. -/
theorem exists_foldl (hw : Item.Balanced w) (grouping : Grouping) :
    ∃ nodes, w.foldl step grouping = { grouping with inner := nodes ++ grouping.inner } ∧
      nodes.reverse.flatMap Node.yield = w.flatMap Item.yield := by
  induction hw generalizing grouping with
  | nil => exact ⟨[], rfl, rfl⟩
  | leaf hl _ ih =>
    obtain ⟨node, hstep, hnode⟩ := step_leaf grouping hl
    obtain ⟨nodes, hfold, hyield⟩ := ih (grouping.push node)
    refine ⟨nodes ++ [node], ?_, by simp [hnode, hyield]⟩
    rw [List.foldl_cons, hstep, hfold]
    simp [push]
  | @group start stop u w _ _ ihu ihw =>
    obtain ⟨node, hgroup, hnode⟩ := exists_push_of_group grouping start stop ihu
    obtain ⟨nodes, hfold, hyield⟩ := ihw (grouping.push node)
    refine ⟨nodes ++ [node], ?_, by simp [hnode, hyield, Item.yield]⟩
    rw [List.append_cons, List.foldl_append, hgroup, hfold]
    simp [push]

end Grouping

/-- The form with the parentheses of the clause has the leaves of its items. -/
theorem Node.yield_ofItems {start stop : Span} {body : List Item} (hb : Item.Balanced body) :
    (Node.ofItems (.opening start :: body ++ [.closing stop])).yield =
      (Item.opening start :: body ++ [Item.closing stop]).flatMap Item.yield := by
  obtain ⟨node, hgroup, hnode⟩ :=
    Grouping.exists_push_of_group {} start stop (Grouping.exists_foldl hb)
  rw [Node.ofItems, hgroup]
  exact hnode

/-! ## Groups by precedence -/

namespace Expr

theorem layoutAll_eq (es : List Expr) : layoutAll es = es.map layout := by
  induction es with
  | nil => rfl
  | cons e rest ih => rw [layoutAll, ih, List.map_cons]

theorem yield_layout_list (items : List Expr) :
    (Expr.list items).layout.yield = items.flatMap fun e => e.layout.yield := by
  rw [layout, yield_list, layoutAll_eq, List.flatMap_map]

/-- The elements of an expression have its leaves. -/
theorem flatMap_yield_elements (e : Expr) :
    (e.elements.flatMap fun x => x.layout.yield) = e.layout.yield := by
  cases e with
  | list items => rw [elements, yield_layout_list]
  | operand x => exact List.flatMap_singleton ..
  | operation op operands => exact List.flatMap_singleton ..

theorem yield_layout_unary (op : Operator) (x : Expr) :
    (Expr.operation op [x]).layout.yield = .operator op :: x.layout.yield := by
  simp [layout, layoutAll, arrange, yield_group, yield]

theorem yield_layout_binary (op : Operator) (x y : Expr) :
    (Expr.operation op [x, y]).layout.yield =
      x.layout.yield ++ .operator op :: y.layout.yield := by
  simp [layout, layoutAll, arrange, yield_group, yield]

theorem yield_layout_ternary (op : Operator) (x low high : Expr) :
    (Expr.operation op [x, low, high]).layout.yield =
      x.layout.yield ++ .operator op :: low.layout.yield ++ .separator :: high.layout.yield := by
  simp [layout, layoutAll, arrange, yield_group, yield]

/-- A tree of two operands has their leaves, with the operator between them unless it is a comma. -/
theorem yield_binary? {op : Operator} {x y e : Expr} (h : binary? op x y = some e) :
    e.layout.yield =
      x.layout.yield ++ (if op = .comma then [] else [.operator op]) ++ y.layout.yield := by
  unfold binary? at h
  split at h
  · split at h
    · cases h
      simp [yield_layout_binary]
    · cases h
  · cases h
    rw [yield_layout_list, List.flatMap_append, flatMap_yield_elements, flatMap_yield_elements]
    simp
  · rename_i hcomma
    cases h
    rw [yield_layout_binary, if_neg hcomma]
    simp

end Expr

namespace Element

mutual

/-- The leaves of a literal list are operands. -/
theorem not_isComma_toNode : ∀ e : Element, ∀ leaf ∈ e.toNode.yield, leaf.isComma = false
  | .operand x => by simp [toNode, yield, Leaf.isComma]
  | .list elements => by
    rw [toNode, yield]
    exact not_isComma_toNodes elements

theorem not_isComma_toNodes :
    ∀ es : List Element, ∀ leaf ∈ yieldAll (toNodes es), leaf.isComma = false
  | [] => by simp [toNodes, yieldAll]
  | e :: rest => by
    rw [toNodes, yieldAll]
    exact List.forall_mem_append.2 ⟨not_isComma_toNode e, not_isComma_toNodes rest⟩

end

end Element

/-- The form by precedence has the leaves of the items that the grammar derives, without the
commas. -/
theorem Grammar.Derives.yield_layout {t : OperatorTable} {c : Category} {w : List Item} {e : Expr}
    (h : Derives t c w e) :
    e.layout.yield = (w.flatMap Item.yield).filter fun leaf => !leaf.isComma := by
  induction h with
  | operand => rfl
  | @list elements span =>
    rw [Expr.layout, Element.layoutAll_toExprs, yield, List.flatMap_singleton, Item.yield, eq_comm,
      List.filter_eq_self]
    intro leaf hleaf
    rw [Element.not_isComma_toNodes elements leaf hleaf]
    rfl
  | empty => rfl
  | group _ ih => simpa [Item.yield] using ih
  | bare _ ih => exact ih
  | @unary k op span w e _ hp _ ih =>
    have hcomma : op ≠ .comma := by
      rintro rfl
      cases hp
    rw [Expr.yield_layout_unary, ih]
    simp [Item.yield, Leaf.isComma, hcomma]
  | single _ ih => exact ih
  | @binary k op span u w x y e _ _ _ _ hb ihx ihy =>
    rw [Expr.yield_binary? hb, ihx, ihy]
    by_cases hcomma : op = .comma <;> simp [hcomma, Item.yield, Leaf.isComma]
  | between _ _ _ _ ihx ihl ihh =>
    rw [Expr.yield_layout_ternary, ihx, ihl, ihh]
    simp [Item.yield, Leaf.isComma]

/-! ## Clauses -/

namespace Parser

/-- In the form by precedence a clause has the leaves that it has in the form with its own
parentheses, in the same order, except for the commas. -/
theorem yield_expression (p : Parser) (clause : String) {r : Parsed}
    (h : p.parse clause = .ok r) :
    r.expression.yield = r.display.yield.filter fun leaf => !leaf.isComma := by
  obtain ⟨items, x, hi, hx, rfl⟩ := parse_eq_ok_iff.1 h
  obtain ⟨body, rfl, hb, -⟩ := Item.balanced_of_ofTokens hi
  obtain ⟨⟨-, hd⟩, hl⟩ := Phrase.isClause_of_ofItems hb hx
  show x.node.yield = _
  rw [show x.node = x.expr.layout from hl, hd.yield_layout, ← Node.yield_ofItems hb]

/-- A clause with commas, with lists in lists, and with parentheses around a single operand. -/
theorem yield_in_and_not_between :
    ∃ r, standard.parse "x IN (1, (2, -3)) AND NOT (a BETWEEN 1 + 2 AND (b)) OR ((c), d = e)" =
        .ok r ∧
      r.display.yield.any Leaf.isComma = true ∧
      r.expression.yield = r.display.yield.filter fun leaf => !leaf.isComma := by
  obtain ⟨r, hr, hcomma⟩ := exists_eq_ok_of_any
    (x := standard.parse "x IN (1, (2, -3)) AND NOT (a BETWEEN 1 + 2 AND (b)) OR ((c), d = e)")
    (p := fun r => r.display.yield.any Leaf.isComma) (by decide +kernel)
  exact ⟨r, hr, hcomma, yield_expression standard _ hr⟩

end Parser

end WhereClause
