import WhereClause.Expr.Evaluate

/-!
# Evaluators

Some evaluators. Where one of them has no value of its own for an operation, it gives the object
that has the operator's text as its key.
-/

namespace WhereClause.Evaluator

variable {σ : Type}

/-- The number of the call, from 1 on. -/
def counting : Evaluator Nat := fun _ _ calls =>
  (.integer (Int64.ofNat (calls + 1)), calls + 1)

/-- The first operand, or `null` without one. -/
def firstOperand : Evaluator σ := fun _ operands =>
  pure (operands.headD .null)

/-- The array `[symbol, operand, …]`. -/
def listed : Evaluator σ := fun op operands =>
  pure (.array (.string op.symbol :: operands))

/-- The integer `n`, if it fits 64 bits. -/
def integer? (n : Int) : Option Value :=
  if Int64.minValue.toInt ≤ n ∧ n ≤ Int64.maxValue.toInt then
    some (.integer (Int64.ofInt n))
  else
    none

/-- The value of an operation on integers. -/
def arithmetic? : Operator → List Value → Option Value
  | .add, [.integer x, .integer y] => integer? (x.toInt + y.toInt)
  | .subtract, [.integer x, .integer y] => integer? (x.toInt - y.toInt)
  | .multiply, [.integer x, .integer y] => integer? (x.toInt * y.toInt)
  | .negate, [.integer x] => integer? (-x.toInt)
  | _, _ => none

/-- The results of arithmetic on integers, as long as they fit 64 bits. -/
def arithmetic : Evaluator σ := fun op operands =>
  match arithmetic? op operands with
  | some value => pure value
  | none => keyed op operands

/-- The filter of a document store for an operation: conditions on a field are keyed by the field,
and connectives by their own names. -/
def filter? : Operator → List Value → Option Value
  | .and, [x, y] => some (.object [("$and", .array [x, y])])
  | .or, [x, y] => some (.object [("$or", .array [x, y])])
  | .not, [x] => some (.object [("$nor", .array [x])])
  | .equal, [.string field, x] => some (.object [(field, x)])
  | .greaterOrEqual, [.string field, x] => some (.object [(field, .object [("$gte", x)])])
  | .isIn, [.string field, x] => some (.object [(field, .object [("$in", x)])])
  | .between, [.string field, low, high] =>
    some (.object [(field, .object [("$gte", low), ("$lte", high)])])
  | _, _ => none

/-- The filters of a document store. -/
def documentFilter : Evaluator σ := fun op operands =>
  match filter? op operands with
  | some value => pure value
  | none => keyed op operands

end WhereClause.Evaluator
