import WhereClause.Expr.Evaluate
import WhereClause.Item.Basic
import WhereClause.Operator.Table
import WhereClause.SyntaxError

/-!
# Folding a clause into a value

The items of a clause evaluated as they come, without a tree. Values go to one stack, operators to
another; an operator is applied as soon as one arrives that binds no tighter. Commas and the right
side of `IN` are matters of structure, so the evaluator never meets a comma.

The calls of the evaluator before an error have been made, so its state survives the error.
-/

namespace WhereClause

/-! ## Stacks -/

/-- A value on the stack. -/
structure Stacked where
  /-- The value. -/
  value : Value
  /-- Whether the value is a list of the clause. -/
  isList : Bool
  /-- Where the value stands. -/
  span : Span
deriving Repr, Inhabited

/-- What waits on the other stack. -/
inductive Waiting
  /-- An opening parenthesis, and the number of values before it. -/
  | opening (span : Span) (height : Nat)
  /-- An operator. A `BETWEEN` is `separated` once its `AND` has come. -/
  | operator (operator : Operator) (span : Span) (separated : Bool)
deriving Repr, Inhabited

/-- The state of folding. -/
structure Stacks where
  /-- The values, latest first. -/
  values : List Stacked := []
  /-- The operators and open parentheses, latest first. -/
  waiting : List Waiting := []
  /-- Whether an operand is to follow. -/
  lacksOperand : Bool := true
deriving Repr, Inhabited

/-- A computation with the evaluator's state that may refuse the clause. -/
abbrev Folding (σ α : Type) :=
  ExceptT SyntaxError (StateM σ) α

namespace Stacked

/-- The values that an operand of a comma contributes: those of a list, or itself. -/
def elements (x : Stacked) : List Value :=
  match x.value, x.isList with
  | .array values, true => values
  | value, _ => [value]

/-- Whether the operands are those of an `IN` without a list, and where the right one stands. -/
def invalidTarget? (op : Operator) (operands : List Stacked) : Option Span :=
  match op, operands with
  | .isIn, _ :: target :: _ => if target.isList then none else some target.span
  | _, _ => none

end Stacked

namespace Stacks

variable {σ : Type} (f : Evaluator σ)

/-! ## Applying operators -/

/-- The value of an operator at `span` and its operands, in order. -/
def combine (op : Operator) (span : Span) (operands : List Stacked) : Folding σ Stacked := do
  let span := operands.foldl (fun span x => span.merge x.span) span
  match Stacked.invalidTarget? op operands with
  | some target => throw (.invalidInTarget target)
  | none =>
    if op = .comma then
      return ⟨.array (operands.flatMap Stacked.elements), true, span⟩
    else
      return ⟨← f op (operands.map Stacked.value), false, span⟩

/-- Applies an operator to the values on top of the stack. -/
def apply (op : Operator) (span : Span) (separated : Bool) (values : List Stacked) :
    Folding σ (List Stacked) := do
  if op = .between ∧ !separated then
    throw (.malformedBetween span)
  else if values.length < op.arity.count then
    throw (.missingOperand op span)
  else
    let x ← combine f op span (values.take op.arity.count).reverse
    return x :: values.drop op.arity.count

/-- Applies the operators on the stack that bind at least as tightly as `op`. -/
def applyTighter (table : OperatorTable) (op : Operator) (values : List Stacked) :
    List Waiting → Folding σ (List Stacked × List Waiting)
  | .operator first span separated :: waiting =>
    if table.bindsTighterOrEqual first op then do
      let values ← apply f first span separated values
      applyTighter table op values waiting
    else
      return (values, .operator first span separated :: waiting)
  | waiting => return (values, waiting)

/-- Applies the operators above the next `BETWEEN` that lacks its `AND`, which is given one. -/
def applyToBetween (separator : Span) (values : List Stacked) :
    List Waiting → Folding σ (List Stacked × List Waiting)
  | .operator op span separated :: waiting =>
    if op = .between ∧ !separated then
      return (values, .operator op span true :: waiting)
    else do
      let values ← apply f op span separated values
      applyToBetween separator values waiting
  | _ => throw (.malformedBetween separator)

/-- Applies the operators above the next open parenthesis, which is taken away. -/
def applyToOpening (closing : Span) (values : List Stacked) :
    List Waiting → Folding σ (List Stacked × List Waiting)
  | .operator op span separated :: waiting => do
    let values ← apply f op span separated values
    applyToOpening closing values waiting
  | .opening _ _ :: waiting => return (values, waiting)
  | [] => throw (.unmatchedParenthesis closing)

/-! ## What may follow -/

/-- Refuses a value, or what begins one, at `span` directly after a value. -/
def admitOperand (state : Stacks) (span : Span) : Except SyntaxError Unit :=
  if state.lacksOperand then .ok () else .error (.missingOperator span)

/-- Refuses the end of an operand where an operator lacks one. -/
def admitEnd (state : Stacks) : Except SyntaxError Unit :=
  match state.waiting with
  | .operator op span _ :: _ =>
    if state.lacksOperand then .error (.missingOperand op span) else .ok ()
  | _ => .ok ()

/-- Refuses a prefix operator as the operand of an operator that binds tighter. -/
def admitPrefix (table : OperatorTable) (state : Stacks) (op : Operator) :
    Except SyntaxError Unit :=
  match state.waiting with
  | .operator lacking span _ :: _ =>
    if table.bindsTighter lacking op then .error (.missingOperand lacking span) else .ok ()
  | _ => .ok ()

/-- The values at a closing parenthesis. Directly after the opening one, an empty list is added. -/
def closeGroup (state : Stacks) (span : Span) : Except SyntaxError (List Stacked) :=
  let empty := match state.waiting with
    | .opening _ height :: _ => state.lacksOperand && height == state.values.length
    | _ => false
  if empty then
    .ok (⟨.array [], true, span⟩ :: state.values)
  else do
    state.admitEnd
    .ok state.values

/-! ## Reading items -/

/-- Adds a value. -/
def pushValue (state : Stacks) (value : Stacked) : Stacks :=
  { state with values := value :: state.values, lacksOperand := false }

/-- Reads an item. -/
def step (table : OperatorTable) (state : Stacks) : Item → Folding σ Stacks
  | .opening span => do
    state.admitOperand span
    return { state with waiting := .opening span state.values.length :: state.waiting }
  | .operand x span => do
    state.admitOperand span
    return state.pushValue ⟨x.toValue, false, span⟩
  | .list elements span => do
    state.admitOperand span
    return state.pushValue ⟨(Expr.list (Element.toExprs elements)).toValue, true, span⟩
  | .operator op span =>
    if op.isPrefix then do
      state.admitOperand span
      state.admitPrefix table op
      return { state with waiting := .operator op span false :: state.waiting }
    else if state.lacksOperand then
      throw (.missingOperand op span)
    else do
      let (values, waiting) ← applyTighter f table op state.values state.waiting
      return { values, waiting := .operator op span false :: waiting, lacksOperand := true }
  | .separator span => do
    state.admitEnd
    let (values, waiting) ← applyToBetween f span state.values state.waiting
    return { values, waiting, lacksOperand := true }
  | .closing span => do
    let values ← state.closeGroup span
    let (values, waiting) ← applyToOpening f span values state.waiting
    return { values, waiting, lacksOperand := false }

/-- The value of the clause, when all its items are read. -/
def finish (state : Stacks) : Except SyntaxError Value :=
  match state.waiting, state.values with
  | .opening span _ :: _, _ => .error (.unmatchedParenthesis span)
  | .operator op span _ :: _, _ => .error (.missingOperand op span)
  | [], [] => .ok (.array [])
  | [], [x] => .ok x.value
  | [], x :: _ :: _ => .error (.missingOperator x.span)

end Stacks

/-- The value of a clause, by calls of the evaluator. -/
def Value.ofItems {σ : Type} (f : Evaluator σ) (table : OperatorTable) (items : List Item) :
    Folding σ Value := do
  let state ← items.foldlM (Stacks.step f table) {}
  state.finish

end WhereClause
