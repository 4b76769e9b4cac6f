import WhereClause.Operator.Basic
import WhereClause.Span

/-!
# Syntax errors

The reasons for which a clause is refused, with the place of each, and their wording.
-/

namespace WhereClause

/-- Why a clause is refused. -/
inductive SyntaxError
  /-- An operator lacks an operand. -/
  | missingOperand (operator : Operator) (span : Span)
  /-- A `BETWEEN` has no `AND` after its lower bound. -/
  | malformedBetween (span : Span)
  /-- The right side of an `IN` is no list. -/
  | invalidInTarget (span : Span)
  /-- A parenthesis has no partner. -/
  | unmatchedParenthesis (span : Span)
  /-- Two operands have no operator between them. -/
  | missingOperator (span : Span)
deriving DecidableEq, Repr

namespace SyntaxError

/-- Where the error is. -/
def span : SyntaxError → Span
  | .missingOperand _ span => span
  | .malformedBetween span => span
  | .invalidInTarget span => span
  | .unmatchedParenthesis span => span
  | .missingOperator span => span

/-- The wording of an error. -/
def message : SyntaxError → String
  | .missingOperand op span =>
    "operator '" ++ op.symbol ++ "' at " ++ span.render ++ " is missing an operand"
  | .malformedBetween span => "BETWEEN at " ++ span.render ++ " expects AND between its bounds"
  | .invalidInTarget span => "IN expects a list, found the expression at " ++ span.render
  | .unmatchedParenthesis span => "unmatched parenthesis at " ++ span.render
  | .missingOperator span => "expected an operator before " ++ span.render

end SyntaxError

end WhereClause
