import WhereClause.Item.Basic
import WhereClause.Proofs.Operator.Precedence

/-!
# The grammar of clauses

A stratified grammar says which items form an expression, and which tree they denote, without
reference to any way of reading them. Tiers are numbered from 0, and two families of categories
build up the precedence:

* `level 0` are the atoms: operands, literal lists and parentheses;
* `operand k` is a run of prefix operators of tier `k` before a `level k`;
* `level (k + 1)` is a chain of the other operators of tier `k`, which associate to the left,
  between members of `operand k`.

So `level n` holds the expressions whose operators outside of parentheses are of the first `n`
tiers, and a whole clause is `level n` in parentheses, where `n` is the number of tiers.
-/

namespace WhereClause

/-! ## Trees of operations -/

/-- The tree of an operator between two operands. A comma makes a list of them, in which lists are
spliced; the right operand of `IN` has to be a list. -/
def Expr.binary? (op : Operator) (x y : Expr) : Option Expr :=
  match op with
  | .isIn => if y.isList then some (.operation .isIn [x, y]) else none
  | .comma => some (.list (x.elements ++ y.elements))
  | op => some (.operation op [x, y])

namespace Grammar

/-! ## Derivations -/

/-- A category of expressions. -/
inductive Category
  /-- Expressions with operators of the tiers below `n`. -/
  | level (n : Nat)
  /-- Operands of the operators of tier `k`. -/
  | operand (k : Nat)
deriving DecidableEq, Repr

/-- An operator of this tier, or of a looser one, may have an operand of the category. -/
def Category.floor : Category → Nat
  | .level n => n
  | .operand k => k

/-- The items of a category, with the tree that they denote. -/
inductive Derives (t : OperatorTable) : Category → List Item → Expr → Prop
  | operand {x : Operand} {span : Span} : Derives t (.level 0) [.operand x span] (.operand x)
  | list {elements : List Element} {span : Span} :
    Derives t (.level 0) [.list elements span] (.list (Element.toExprs elements))
  | empty {start stop : Span} : Derives t (.level 0) [.opening start, .closing stop] (.list [])
  | group {start stop : Span} {w : List Item} {e : Expr} :
    Derives t (.level t.tiers.length) w e →
      Derives t (.level 0) (.opening start :: w ++ [.closing stop]) e
  | bare {k : Nat} {w : List Item} {e : Expr} :
    Derives t (.level k) w e → Derives t (.operand k) w e
  | unary {k : Nat} {op : Operator} {span : Span} {w : List Item} {e : Expr} :
    op ∈ t.tier k → op.isPrefix → Derives t (.operand k) w e →
      Derives t (.operand k) (.operator op span :: w) (.operation op [e])
  | single {k : Nat} {w : List Item} {e : Expr} :
    Derives t (.operand k) w e → Derives t (.level (k + 1)) w e
  | binary {k : Nat} {op : Operator} {span : Span} {u w : List Item} {x y e : Expr} :
    op ∈ t.tier k → op.arity = .binary → Derives t (.level (k + 1)) u x →
      Derives t (.operand k) w y → Expr.binary? op x y = some e →
      Derives t (.level (k + 1)) (u ++ .operator op span :: w) e
  | between {k : Nat} {span stop : Span} {u v w : List Item} {x low high : Expr} :
    .between ∈ t.tier k → Derives t (.level (k + 1)) u x → Derives t (.operand k) v low →
      Derives t (.operand k) w high →
      Derives t (.level (k + 1)) (u ++ .operator .between span :: v ++ .separator stop :: w)
        (.operation .between [x, low, high])

/-- The items of a whole clause: one atom, whose parentheses are those of the clause. -/
def IsClause (t : OperatorTable) (items : List Item) (e : Expr) : Prop :=
  (∃ start stop body, items = .opening start :: body ++ [.closing stop]) ∧
    Derives t (.level 0) items e

/-! ## Inclusions -/

namespace Derives

variable {t : OperatorTable} {w : List Item} {e : Expr}

theorem level_mono {j k : Nat} (h : Derives t (.level j) w e) (hjk : j ≤ k) :
    Derives t (.level k) w e := by
  induction hjk with
  | refl => exact h
  | step _ ih => exact .single (.bare ih)

theorem operand_of_level {j k : Nat} (h : Derives t (.level j) w e) (hjk : j ≤ k) :
    Derives t (.operand k) w e :=
  .bare (h.level_mono hjk)

theorem level_of_operand {j k : Nat} (h : Derives t (.operand j) w e) (hjk : j < k) :
    Derives t (.level k) w e :=
  (single h).level_mono hjk

theorem operand_mono {j k : Nat} (h : Derives t (.operand j) w e) (hjk : j ≤ k) :
    Derives t (.operand k) w e := by
  rcases Nat.eq_or_lt_of_le hjk with rfl | hlt
  · exact h
  · exact .bare (h.level_of_operand hlt)

/-- An expression has at least one item. -/
theorem ne_nil {c : Category} (h : Derives t c w e) : w ≠ [] := by
  induction h <;> simp_all

end Derives

end Grammar

end WhereClause
