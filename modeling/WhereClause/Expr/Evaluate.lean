import WhereClause.Expr.Basic
import WhereClause.Value.Basic

/-!
# Evaluation

An evaluator gives the value of an operation from the values of its operands; it may keep a state
between its calls. A tree is evaluated from the leaves up and from left to right.
-/

namespace WhereClause

/-- The value of an operation from the values of its operands, by a computation with a state. -/
abbrev Evaluator (σ : Type) :=
  Operator → List Value → StateM σ Value

/-- A call of an evaluator. -/
structure Call where
  /-- The operator of the operation. -/
  operator : Operator
  /-- The values of its operands. -/
  operands : List Value
deriving Repr, Inhabited

namespace Evaluator

variable {σ : Type}

/-- The object `{symbol: [operands]}`. -/
def keyed : Evaluator σ := fun op operands =>
  pure (.object [(op.symbol, .array operands)])

/-- The evaluator with a record of its calls, in the order in which they are made. -/
def recorded (f : Evaluator σ) : Evaluator (σ × List Call) := fun op operands (state, calls) =>
  let (value, state) := f op operands state
  (value, state, calls ++ [⟨op, operands⟩])

end Evaluator

namespace Expr

variable {σ : Type}

mutual

/-- The value of a tree. Names become strings and lists become arrays. -/
def evaluate (f : Evaluator σ) : Expr → StateM σ Value
  | .operand x => pure x.toValue
  | .list items => do return .array (← evaluateAll f items)
  | .operation op operands => do f op (← evaluateAll f operands)

/-- The values of trees, from left to right. -/
def evaluateAll (f : Evaluator σ) : List Expr → StateM σ (List Value)
  | [] => pure []
  | e :: rest => do
    let value ← e.evaluate f
    let values ← evaluateAll f rest
    return value :: values

end

/-- A tree as nested objects, each with the text of an operator as its key. -/
def toValue (e : Expr) : Value :=
  (e.evaluate Evaluator.keyed ()).1

end Expr

end WhereClause
