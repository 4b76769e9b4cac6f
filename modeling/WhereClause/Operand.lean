import WhereClause.Literal

/-!
# Operands

The leaves of expressions: literals and names. As text, a string stands in quotes, and any other
operand is written bare.
-/

namespace WhereClause

/-- A leaf of an expression. -/
inductive Operand
  /-- A value. -/
  | literal (value : Literal)
  /-- A name, as it was written. -/
  | identifier (name : String)
deriving BEq, Repr, Inhabited

namespace Operand

/-- The quotes that a string may stand in, the preferred first. -/
def quotes : List Char :=
  ['"', '\'', '\x60']

/-- A string in the first quotes that do not occur in it. If all of them occur, it stands in double
quotes, and those in it have a backslash before them. -/
def writeString (text : List Char) : List Char :=
  match quotes.find? (!text.contains ·) with
  | some quote => quote :: text ++ [quote]
  | none => '"' :: text.flatMap (fun c => if c = '"' then ['\\', '"'] else [c]) ++ ['"']

/-- The characters of an operand. -/
def write : Operand → List Char
  | .literal (.string text) => writeString text.toList
  | .literal value => value.render.toList
  | .identifier name => name.toList

/-- The text of an operand. -/
def render (operand : Operand) : String :=
  String.ofList operand.write

end Operand

end WhereClause
