import WhereClause.Phrase.Tiers

/-!
# From items to phrases

The items of a clause are read one by one into nested groups, and a group becomes a phrase when it
closes. An item that cannot stand where it does is refused when it arrives, so the first such item
is the one that is reported.
-/

namespace WhereClause

/-- Groups that are being read. -/
structure Nesting where
  /-- The parts of the innermost open group, latest first. -/
  inner : List Part := []
  /-- The opening parentheses, innermost first, each with the parts before it, latest first. -/
  outer : List (Span × List Part) := []
deriving Repr, Inhabited

namespace Nesting

/-- Adds a part to the innermost group. -/
def push (nesting : Nesting) (part : Part) : Nesting :=
  { nesting with inner := part :: nesting.inner }

/-! ## What may follow -/

/-- Refuses a value, or what begins one, at `span` directly after a value. -/
def admitOperand (nesting : Nesting) (span : Span) : Except SyntaxError Unit :=
  if Part.lacksOperand nesting.inner then .ok () else .error (.missingOperator span)

/-- Refuses the end of an operand where an operator lacks one. -/
def admitEnd (nesting : Nesting) : Except SyntaxError Unit :=
  match Part.lacking? nesting.inner with
  | some (op, span) => .error (.missingOperand op span)
  | none => .ok ()

/-- Refuses a prefix operator as the operand of an operator that binds tighter. -/
def admitPrefix (table : OperatorTable) (nesting : Nesting) (op : Operator) :
    Except SyntaxError Unit :=
  match Part.lacking? nesting.inner with
  | some (lacking, span) =>
    if table.bindsTighter lacking op then .error (.missingOperand lacking span) else .ok ()
  | none => .ok ()

/-! ## Reading -/

/-- Reads an item. -/
def step (table : OperatorTable) (nesting : Nesting) : Item → Except SyntaxError Nesting
  | .opening span => do
    nesting.admitOperand span
    .ok { inner := [], outer := (span, nesting.inner) :: nesting.outer }
  | .closing span =>
    match nesting.outer with
    | [] => .error (.unmatchedParenthesis span)
    | (start, before) :: outer => do
      nesting.admitEnd
      let x ← Part.resolve table nesting.inner.reverse (start.merge span)
      .ok { inner := .phrase x :: before, outer }
  | .operand x span => do
    nesting.admitOperand span
    .ok (nesting.push (.phrase (.ofOperand x span)))
  | .list elements span => do
    nesting.admitOperand span
    .ok (nesting.push (.phrase (.ofElements elements span)))
  | .operator op span =>
    if op.isPrefix then do
      nesting.admitOperand span
      nesting.admitPrefix table op
      .ok (nesting.push (.operator op span))
    else if Part.lacksOperand nesting.inner then
      .error (.missingOperand op span)
    else
      .ok (nesting.push (.operator op span))
  | .separator span => do
    nesting.admitEnd
    .ok (nesting.push (.separator span))

/-- The phrase of the clause, when all its items are read. -/
def finish (table : OperatorTable) (nesting : Nesting) : Except SyntaxError Phrase :=
  match nesting.outer with
  | (span, _) :: _ => .error (.unmatchedParenthesis span)
  | [] => Part.resolve table nesting.inner.reverse {}

end Nesting

/-- The phrase of a clause by the precedence of its operators. -/
def Phrase.ofItems (table : OperatorTable) (items : List Item) : Except SyntaxError Phrase := do
  let nesting ← items.foldlM (Nesting.step table) {}
  nesting.finish table

end WhereClause
