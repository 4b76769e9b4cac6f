import WhereClause.Proofs.Application
import WhereClause.Proofs.Expr.Tokens
import WhereClause.Proofs.Node.Yield

/-!
# The bracketed form of a clause

A clause that is read has a tree and a node with each operation in its own group. They are built
side by side, but the node says no more than the tree: it is the layout of it.

Both have a text, and the two texts are written by different rules. A tree puts parentheses around
the operations inside of it, and a node around every group. So the text of a layout is that of its
tree inside of another one: only the outermost operation has parentheses of its own.
-/

namespace WhereClause

/-! ## Joined texts -/

theorem Text.joinWith_cons (separator x : List Char) (rest : List (List Char)) :
    joinWith separator (x :: rest) = x ++ rest.flatMap (separator ++ ·) := by
  induction rest generalizing x with
  | nil => simp [joinWith]
  | cons y rest ih => rw [joinWith, ih, List.flatMap_cons, List.append_assoc, List.append_assoc]

theorem Node.writeAll_eq (nodes : List Node) : writeAll nodes = nodes.map write := by
  induction nodes with
  | nil => rfl
  | cons node rest ih => rw [writeAll, ih, List.map_cons]

/-! ## The text of a layout -/

namespace Expr

/-- The nodes of an operation, with blanks between them, are the text of the operation. -/
theorem joinWith_arrange (op : Operator) (nodes : List Node) :
    Text.joinWith [' '] ((arrange op nodes).map Node.write) =
      writeOperation op (nodes.map Node.write) := by
  match nodes with
  | [] | [x] | [x, y] | [x, low, high] =>
    simp [arrange, writeOperation, Text.joinWith, Node.write]
  | x :: y :: z :: w :: rest =>
    rw [arrange, List.map_cons, Text.joinWith_cons, Node.write]
    · rfl
    all_goals simp

theorem write_layout (e : Expr) : e.layout.write = e.writeInner := by
  induction e using induction_subtrees with
  | operand x => rfl
  | list items ih =>
    have hitems : (items.map layout).map Node.write = items.map writeInner := by
      rw [List.map_map]
      exact List.map_congr_left ih
    rw [layout, layoutAll_eq, Node.write, Node.writeAll_eq, hitems, ← write_list]
    rfl
  | operation op operands ih =>
    have hoperands : (operands.map layout).map Node.write = operands.map writeInner := by
      rw [List.map_map]
      exact List.map_congr_left ih
    rw [layout, layoutAll_eq, Node.write, Node.writeAll_eq, joinWith_arrange, hoperands,
      ← write_operation]
    rfl

theorem render_layout (e : Expr) :
    e.layout.render = if e.operator?.isSome then "(" ++ e.render ++ ")" else e.render := by
  rw [Node.render, write_layout, writeInner]
  split
  · apply String.toList_injective
    simp [render, Text.parenthesized]
  · rfl

end Expr

/-! ## Clauses -/

namespace Parser

/-- The node of a clause is the layout of its tree, in which each operator has the operands that it
needs. So its text is that of the tree, in parentheses if the tree is an operation. -/
theorem expression_eq_layout (p : Parser) (clause : String) {r : Parsed}
    (h : p.parse clause = .ok r) :
    r.expression = r.tree.layout ∧
      (∀ o ∈ r.tree.operations, o.2.length = o.1.arity.count) ∧
      r.expression.render =
        if r.tree.operator?.isSome then "(" ++ r.tree.render ++ ")" else r.tree.render := by
  have happlied := applied_tree h
  obtain ⟨items, x, hi, hx, rfl⟩ := parse_eq_ok_iff.1 h
  obtain ⟨body, rfl, hb, -⟩ := Item.balanced_of_ofTokens hi
  have hlaid : x.node = x.expr.layout := (Phrase.isClause_of_ofItems hb hx).2
  refine ⟨hlaid, fun o ho => (happlied o ho).length, ?_⟩
  show x.node.render = _
  rw [hlaid]
  exact Expr.render_layout x.expr

/-- The first clause is a list, into which another list is spliced; the second one is an operation
with an operation inside. -/
theorem expression_eq_layout_list :
    (∃ r, standard.parse "(a, -b), (x BETWEEN c AND d)" = .ok r ∧
      r.tree.render = "(a, (- b), (x BETWEEN c AND d))" ∧
      r.expression.render = "(a, (- b), (x BETWEEN c AND d))") ∧
    ∃ r, standard.parse "NOT x IN (a, (b))" = .ok r ∧
      r.tree.render = "(NOT x) IN (a, (b))" ∧
      r.expression.render = "((NOT x) IN (a, (b)))" := by
  constructor
  · obtain ⟨r, hr, hp⟩ := exists_eq_ok_of_any (x := standard.parse "(a, -b), (x BETWEEN c AND d)")
      (p := fun r => r.tree.operator?.isNone &&
        r.tree.render == "(a, (- b), (x BETWEEN c AND d))") (by decide +kernel)
    simp only [Bool.and_eq_true, Option.isNone_iff_eq_none, beq_iff_eq] at hp
    refine ⟨r, hr, hp.2, ?_⟩
    rw [(expression_eq_layout standard _ hr).2.2, hp.1, hp.2]
    rfl
  · obtain ⟨r, hr, hp⟩ := exists_eq_ok_of_any (x := standard.parse "NOT x IN (a, (b))")
      (p := fun r => r.tree.operator?.isSome && r.tree.render == "(NOT x) IN (a, (b))")
      (by decide +kernel)
    simp only [Bool.and_eq_true, beq_iff_eq] at hp
    refine ⟨r, hr, hp.2, ?_⟩
    rw [(expression_eq_layout standard _ hr).2.2, if_pos hp.1, hp.2]
    rfl

end Parser

end WhereClause
