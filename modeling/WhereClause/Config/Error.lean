/-!
# Configuration errors

The reasons for which a configuration is refused, and their wording.
-/

namespace WhereClause

/-- Why a configuration is refused. -/
inductive ConfigError
  /-- An operator or a symbol has no characters. -/
  | emptySymbol
  /-- The operator stands in the table already, perhaps in another case. -/
  | duplicateOperator (operator : String)
  /-- A built-in operator was given another number of operands than its own. -/
  | arityMismatch (operator : String) (expected found : Nat)
  /-- An operator that is not built in was given three operands. -/
  | unsupportedArity (operator : String) (arity : Nat)
  /-- No operator takes this number of operands. -/
  | invalidArity (count : Nat)
  /-- The text is no JSON document of a configuration. -/
  | malformedDocument
deriving DecidableEq, Repr

/-- The wording of an error. -/
def ConfigError.message : ConfigError → String
  | .emptySymbol => "operator and tokenizer symbols must not be empty"
  | .duplicateOperator operator => "operator '" ++ operator ++ "' is configured more than once"
  | .arityMismatch operator expected found =>
    "operator '" ++ operator ++ "' takes " ++ expected.repr ++ " operand(s), configured with " ++
      found.repr
  | .unsupportedArity operator arity =>
    "operator '" ++ operator ++ "' cannot take " ++ arity.repr ++
      " operands: only BETWEEN is ternary"
  | .invalidArity count => "arity must be 1, 2 or 3, got " ++ count.repr
  | .malformedDocument => "invalid parser configuration"

end WhereClause
