import WhereClause.Operator.Table
import WhereClause.Token.Lexicon

/-!
# Configurations

A configuration is the raw material of a parser: tiers of operators, those that bind tightest first,
and lexical rules. It may hold anything; what a parser needs is checked when the parser is made.
-/

namespace WhereClause

/-- Tiers of operators and lexical rules. -/
structure Config where
  /-- The operators by precedence, those that bind tightest first. -/
  tiers : List Tier
  /-- The lexical rules. -/
  rules : LexicalRules
deriving DecidableEq

namespace Config

/-- The built-in operators and the standard rules. -/
def standard : Config where
  tiers := Operator.standardTiers.map fun ops =>
    Tier.ofList (ops.map fun op => (op.symbol, op.arity))
  rules := LexicalRules.standard

instance : Inhabited Config := ⟨standard⟩

/-- Gives an operator a place in the tier `index`, after empty tiers if there are too few. -/
def withOperator (config : Config) (index : Nat) (name : String) (arity : Arity) : Config :=
  let padding := List.replicate (index + 1 - config.tiers.length) Tier.empty
  { config with tiers := (config.tiers ++ padding).modify index (·.insert name arity) }

/-- Adds a symbol to the lexical rules. -/
def withSymbol (config : Config) (symbol : String) : Config :=
  { config with rules := config.rules.withSymbol symbol }

end Config

end WhereClause
