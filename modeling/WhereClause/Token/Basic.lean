import WhereClause.Literal
import WhereClause.Span

/-!
# Tokens

A token is a piece of a clause together with its place. The symbols `(`, `)` and `,` are
punctuation, the other symbols are operators, and words are literals or names.
-/

namespace WhereClause

/-- What a token is. -/
inductive Token.Kind
  /-- A parenthesis or a comma. -/
  | punctuation (mark : Char)
  /-- Another symbol of the lexicon. -/
  | operator (text : String)
  /-- A value, with the quote around it if there was one. -/
  | literal (value : Literal) (quote : Option Char)
  /-- A bare word that is no literal, as it was written. -/
  | identifier (text : String)
deriving BEq, Repr, Inhabited

/-- A piece of a clause and where it stands. -/
structure Token where
  /-- What the token is. -/
  kind : Token.Kind
  /-- Where the token stands. -/
  span : Span
deriving BEq, Repr, Inhabited

namespace Token

/-- Whether quotes stand around the token. -/
def isQuoted (t : Token) : Bool :=
  match t.kind with
  | .literal _ (some _) => true
  | _ => false

/-- Whether the token opens a parenthesis. -/
def isOpening (t : Token) : Bool :=
  match t.kind with
  | .punctuation mark => mark == '('
  | _ => false

/-- The text under which the token may name an operator. A literal names none, and a mark that is no
parenthesis counts as a comma. -/
def word? (t : Token) : Option String :=
  match t.kind with
  | .punctuation mark => some (if mark = '(' then "(" else if mark = ')' then ")" else ",")
  | .operator text => some text
  | .identifier text => some text
  | .literal _ _ => none

/-- The text of a token, quotes included. -/
def render (t : Token) : String :=
  match t.kind with
  | .punctuation mark => mark.toString
  | .operator text => text
  | .identifier text => text
  | .literal value none => value.render
  | .literal value (some quote) => quote.toString ++ value.render ++ quote.toString

/-- The token of a symbol. -/
def ofSymbol (symbol : List Char) (span : Span) : Token :=
  match symbol with
  | ['('] => ⟨.punctuation '(', span⟩
  | [')'] => ⟨.punctuation ')', span⟩
  | [','] => ⟨.punctuation ',', span⟩
  | _ => ⟨.operator (String.ofList symbol), span⟩

/-- The token of a bare word: a literal if the word stands for one, or else a name. -/
def ofWord (word : List Char) (span : Span) : Token :=
  match Literal.ofWord? (String.ofList word) with
  | some value => ⟨.literal value none, span⟩
  | none => ⟨.identifier (String.ofList word), span⟩

end Token

end WhereClause
