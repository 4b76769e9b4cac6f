import WhereClause.Config.Json
import WhereClause.Evaluator.Catalogue
import WhereClause.Parser
import WhereClause.Proofs.Grammar
import WhereClause.Proofs.Item.Balance
import WhereClause.Proofs.Phrase.Layout
import WhereClause.Proofs.Phrase.Soundness
import WhereClause.Proofs.Phrase.Completeness
import WhereClause.Proofs.Value.Phases
import WhereClause.Proofs.Value.Completeness
import WhereClause.Proofs.Value.Soundness
import WhereClause.Proofs.Strategies
import WhereClause.Proofs.Token.Longest
import WhereClause.Proofs.Token.LookAhead
import WhereClause.Proofs.Operand.Quoting
import WhereClause.Proofs.Token.Word
import WhereClause.Proofs.Decimal.Text
import WhereClause.Proofs.Literal.Reading
import WhereClause.Proofs.Expr.Shape
import WhereClause.Proofs.Expr.Tokens
import WhereClause.Proofs.Item.Lineage
import WhereClause.Proofs.Expr.Derived
import WhereClause.Proofs.Expr.Faithful
import WhereClause.Proofs.Item.Recapture
import WhereClause.Proofs.Item.Rereading
import WhereClause.Proofs.RoundTrip
import WhereClause.Proofs.Token.Tiling
import WhereClause.Proofs.Expr.WellFormed
import WhereClause.Proofs.Token.Seam
import WhereClause.Proofs.Item.Relocation
import WhereClause.Proofs.Composition
import WhereClause.Proofs.Value.Refusal
import WhereClause.Proofs.Rejection
import WhereClause.Proofs.Token.Stream
import WhereClause.Proofs.Node.Yield
import WhereClause.Proofs.Application
import WhereClause.Proofs.Item.Pairing
import WhereClause.Proofs.Parentheses
import WhereClause.Proofs.Node.Bracketing
import WhereClause.Proofs.Item.Separators
import WhereClause.Proofs.Item.Captured
import WhereClause.Proofs.Operator.Agreement
import WhereClause.Proofs.Item.Agreement
import WhereClause.Proofs.Phrase.Agreement
import WhereClause.Proofs.RelativePrecedence
import WhereClause.Proofs.Text.Capital
import WhereClause.Proofs.Operator.Configured
import WhereClause.Proofs.Item.Origin
import WhereClause.Proofs.Item.Legible
import WhereClause.Proofs.Node.Redisplay
import WhereClause.Proofs.Item.Extent
import WhereClause.Proofs.Phrase.Places
import WhereClause.Proofs.Value.Places
import WhereClause.Proofs.ErrorPlaces
import WhereClause.Proofs.Token.RuleSets
import WhereClause.Proofs.Token.Reach
import WhereClause.Proofs.Config.RoundTrip
import WhereClause.Proofs.Phrase.Arrangement
import WhereClause.Proofs.Value.Applications
import WhereClause.Proofs.SpareChecks
