import WhereClause.Operator.Table
import WhereClause.Phrase.Basic
import WhereClause.SyntaxError

/-!
# Precedence

The parts of a closed group become one phrase by applying the tiers of the table in turn, those
that bind tightest first. Within a tier prefix operators apply from right to left, so that they
nest, and then the others from left to right, so that they associate to the left.
-/

namespace WhereClause.Part

/-! ## One tier -/

/-- Applies the prefix operators of a tier, from right to left. -/
def applyPrefix (tier : List Operator) : List Part → Except SyntaxError (List Part)
  | [] => .ok []
  | .operator op span :: rest => do
    let rest ← applyPrefix tier rest
    if op.isPrefix && tier.contains op then
      match rest with
      | .phrase x :: rest => .ok (.phrase (.unary op span x) :: rest)
      | _ => .error (.missingOperand op span)
    else
      .ok (.operator op span :: rest)
  | part :: rest => do
    let rest ← applyPrefix tier rest
    .ok (part :: rest)

/-- The phrase of an operator and two operands. A comma makes a list, and `IN` takes only a list on
its right. -/
def applyBinary (op : Operator) (span : Span) (x y : Phrase) : Except SyntaxError Phrase :=
  match op with
  | .isIn => if y.expr.isList then .ok (.binary op span x y) else .error (.invalidInTarget y.span)
  | .comma => .ok (.join x y)
  | _ => .ok (.binary op span x y)

/-- Applies the other operators of a tier, from left to right, to the parts after `done`, which are
given latest first. -/
def applyInfix (tier : List Operator) (done : List Part) :
    List Part → Except SyntaxError (List Part)
  | [] => .ok done.reverse
  | .operator op span :: rest =>
    if !op.isPrefix && tier.contains op then
      match done, rest with
      | .phrase x :: done, .phrase y :: rest =>
        if op = .between then
          match rest with
          | .separator _ :: .phrase high :: rest =>
            applyInfix tier (.phrase (.ternary op span x y high) :: done) rest
          | .separator _ :: _ => .error (.missingOperand op span)
          | _ => .error (.malformedBetween span)
        else do
          let z ← applyBinary op span x y
          applyInfix tier (.phrase z :: done) rest
      | _, _ => .error (.missingOperand op span)
    else
      applyInfix tier (.operator op span :: done) rest
  | part :: rest => applyInfix tier (part :: done) rest

/-! ## All tiers -/

/-- Applies the tiers in turn. -/
def applyTiers : List (List Operator) → List Part → Except SyntaxError (List Part)
  | [], parts => .ok parts
  | tier :: tiers, parts => do
    let parts ← applyPrefix tier parts
    let parts ← applyInfix tier [] parts
    applyTiers tiers parts

/-- The phrase of a closed group. A group without parts is an empty list, at `span`. -/
def resolve (table : OperatorTable) (parts : List Part) (span : Span) :
    Except SyntaxError Phrase :=
  if parts.isEmpty then
    .ok ⟨.list [], .list [], span⟩
  else do
    match ← applyTiers table.tiers parts with
    | [.phrase x] => .ok x
    | [part] => .error (.missingOperator part.span)
    | _ :: part :: _ => .error (.missingOperator part.span)
    | [] => .error (.missingOperator span)

end WhereClause.Part
