import WhereClause.Config.Basic
import WhereClause.Item.Tagging
import WhereClause.Node.Grouping
import WhereClause.Phrase.Nesting
import WhereClause.Token.Lexer
import WhereClause.Value.Fold

/-!
# Parsers of clauses

A parser is a lexicon and an operator table. It reads the condition of a query, such as
`name = "Ann" AND age >= 27`, into a tree, or evaluates it on the way.
-/

namespace WhereClause

/-- What is needed to read clauses. -/
structure Parser where
  /-- The lexical rules. -/
  lexicon : Lexicon
  /-- The operators by precedence. -/
  table : OperatorTable

/-- A clause that has been read. -/
structure Parsed where
  /-- The tokens of the clause. -/
  tokens : List Token
  /-- The clause with each operation in its own group. -/
  expression : Node
  /-- The clause with its own parentheses only. -/
  display : Node
  /-- The clause as a tree. -/
  tree : Expr
deriving Repr, Inhabited

namespace Parser

/-- The parser of the built-in operators and the standard rules. -/
def standard : Parser :=
  ⟨.standard, .standard⟩

instance : Inhabited Parser := ⟨standard⟩

/-- The parser of a configuration. The operators are checked before the lexical rules. -/
def ofConfig (config : Config) : Except ConfigError Parser := do
  let table ← OperatorTable.ofTiers config.tiers
  let lexicon ← config.rules.lexicon
  .ok ⟨lexicon, table⟩

variable (p : Parser)

/-- The tokens of a clause. -/
def tokenize (clause : String) : List Token :=
  p.lexicon.tokenize clause

/-- The items of a clause. -/
def items (clause : String) : Except SyntaxError (List Item) :=
  Item.ofTokens p.table clause.utf8ByteSize (p.tokenize clause)

/-- Reads a clause into its bracketed forms and its tree. -/
def parse (clause : String) : Except SyntaxError Parsed := do
  let items ← p.items clause
  let phrase ← Phrase.ofItems p.table items
  .ok
    { tokens := p.tokenize clause
      expression := phrase.node
      display := .ofItems items
      tree := phrase.expr }

/-- Groups a clause by its own parentheses, whatever stands in them. -/
def group (clause : String) : Except SyntaxError Node := do
  let items ← p.items clause
  .ok (.ofItems items)

/-- Evaluates a clause while it is read. -/
def fold {σ : Type} (f : Evaluator σ) (clause : String) : Folding σ Value := do
  let items ← p.items clause
  Value.ofItems f p.table items

end Parser

end WhereClause
