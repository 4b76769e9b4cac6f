import WhereClause.Item.Basic
import WhereClause.Operator.Table
import WhereClause.SyntaxError
import WhereClause.Token.Basic

/-!
# From tokens to items

Each token gets its meaning from the operator table and from what stands before it. A word of the
table is an operator, and any other word is a name. A minus that follows no operand is the prefix
minus. An `AND` belongs to a `BETWEEN` as long as one in the same parentheses waits for it. The
parentheses directly after an `IN` hold a literal list, in which words have no meaning.

Tokens are read one by one, so the items of a clause are a left fold over its tokens. The only
error is a parenthesis without a partner.
-/

namespace WhereClause

/-! ## Literal lists -/

/-- A literal list that is being read. -/
structure OpenList where
  /-- The opening parenthesis. -/
  span : Span
  /-- The elements, latest first. -/
  elements : List Element := []
deriving Repr, Inhabited

/-- Adds an element at the end. -/
def OpenList.push (list : OpenList) (element : Element) : OpenList :=
  { list with elements := element :: list.elements }

/-- Puts an element in the place of the last one. -/
def OpenList.replaceLast (list : OpenList) (element : Element) : OpenList :=
  { list with elements := element :: list.elements.drop 1 }

/-- The element of a token that is no parenthesis; a comma has none. -/
def Element.ofToken? (token : Token) : Option Element :=
  match token.kind with
  | .literal value _ => some (.operand (.literal value))
  | .operator text => some (.operand (.identifier text))
  | .identifier text => some (.operand (.identifier text))
  | .punctuation mark =>
    if mark = ',' then none else some (.operand (.identifier mark.toString))

/-- Whether the token is a minus. -/
def Token.isMinus (token : Token) : Bool :=
  match token.kind with
  | .operator text => text == "-"
  | _ => false

/-- The number with its sign changed, if the token is one without quotes. -/
def Token.negated? (token : Token) : Option Literal :=
  match token.kind with
  | .literal value none => value.negated?
  | _ => none

/-! ## States -/

/-- The literal lists that are open, innermost first. -/
structure Capture where
  /-- The innermost list. -/
  inner : OpenList
  /-- The lists around it. -/
  outer : List OpenList := []
  /-- Whether the last token was a minus, which the next number takes. -/
  minus : Bool := false
deriving Repr, Inhabited

/-- Adds a token that is no parenthesis. A number takes the minus directly before it as its sign. -/
def Capture.push (capture : Capture) (token : Token) : Capture :=
  match (if capture.minus then token.negated? else none), Element.ofToken? token with
  | some value, _ =>
    { capture with inner := capture.inner.replaceLast (.operand (.literal value)), minus := false }
  | none, some element =>
    { capture with inner := capture.inner.push element, minus := token.isMinus }
  | none, none => { capture with minus := false }

/-- An open parenthesis. -/
structure OpenGroup where
  /-- The parenthesis. -/
  span : Span
  /-- The number of `BETWEEN`s outside of it that wait for their `AND`. -/
  waiting : Nat
deriving Repr, Inhabited

/-- Tokens that are being tagged with their meaning. -/
structure Tagging where
  /-- The items so far, latest first. -/
  items : List Item
  /-- The open parentheses, innermost first. -/
  groups : List OpenGroup := []
  /-- The number of `BETWEEN`s in the innermost parentheses that wait for their `AND`. -/
  waiting : Nat := 0
  /-- The literal list that is being read. -/
  capture : Option Capture := none
deriving Repr, Inhabited

namespace Tagging

/-- The state at the beginning of a clause. -/
def initial : Tagging :=
  { items := [.opening (.point 0)] }

/-- Adds an item at the end. -/
def push (state : Tagging) (item : Item) : Tagging :=
  { state with items := item :: state.items }

/-- Whether an operand is to follow, so that a minus is a prefix. -/
def lacksOperand (state : Tagging) : Bool :=
  match state.items with
  | [] => true
  | .opening _ :: _ => true
  | .operator _ _ :: _ => true
  | .separator _ :: _ => true
  | _ => false

/-- Whether the last token was an `IN`. -/
def afterIn (state : Tagging) : Bool :=
  match state.items with
  | .operator op _ :: _ => op == .isIn
  | _ => false

/-! ## Steps -/

variable (table : OperatorTable)

/-- The operator of a word at this place. -/
def operatorAt? (state : Tagging) (word : String) : Option Operator :=
  (table.get? word).map fun op =>
    if op = .subtract ∧ state.lacksOperand then table.negation?.getD .subtract else op

/-- Reads a word. -/
def readWord (state : Tagging) (word : String) (span : Span) : Tagging :=
  if Text.eqIgnoringAsciiCase word "AND" && 0 < state.waiting then
    { state with waiting := state.waiting - 1 }.push (.separator span)
  else
    match operatorAt? table state word with
    | none => state.push (.operand (.identifier word) span)
    | some .between => { state with waiting := state.waiting + 1 }.push (.operator .between span)
    | some op => state.push (.operator op span)

/-- Reads a closing parenthesis. -/
def readClosing (state : Tagging) (span : Span) : Except SyntaxError Tagging :=
  match state.groups with
  | [] => .error (.unmatchedParenthesis span)
  | group :: groups =>
    .ok ({ state with groups, waiting := group.waiting }.push (.closing span))

/-- Reads a token that is part of no literal list. -/
def readToken (state : Tagging) (token : Token) : Except SyntaxError Tagging :=
  match token.kind with
  | .literal value _ => .ok (state.push (.operand (.literal value) token.span))
  | .punctuation '(' =>
    if state.afterIn then
      .ok { state with capture := some { inner := { span := token.span } } }
    else
      .ok ({ state with
        groups := ⟨token.span, state.waiting⟩ :: state.groups
        waiting := 0 }.push (.opening token.span))
  | .punctuation ')' => readClosing state token.span
  | .punctuation _ => .ok (readWord table state "," token.span)
  | .operator text => .ok (readWord table state text token.span)
  | .identifier text => .ok (readWord table state text token.span)

/-- Reads a token of a literal list. -/
def readListToken (state : Tagging) (capture : Capture) (token : Token) : Tagging :=
  match token.kind with
  | .punctuation '(' =>
    { state with
      capture := some { inner := { span := token.span }, outer := capture.inner :: capture.outer } }
  | .punctuation ')' =>
    let elements := Element.collapse capture.inner.elements.reverse
    match capture.outer with
    | [] =>
      { state with capture := none }.push (.list elements (capture.inner.span.merge token.span))
    | list :: outer => { state with capture := some { inner := list.push (.list elements), outer } }
  | _ => { state with capture := some (capture.push token) }

/-- Reads a token. -/
def step (state : Tagging) (token : Token) : Except SyntaxError Tagging :=
  match state.capture with
  | some capture => .ok (readListToken state capture token)
  | none => readToken table state token

/-- The items of a clause of `length` bytes, when all its tokens are read. -/
def finish (state : Tagging) (length : Nat) : Except SyntaxError (List Item) :=
  match state.capture, state.groups with
  | some capture, _ => .error (.unmatchedParenthesis capture.inner.span)
  | none, group :: _ => .error (.unmatchedParenthesis group.span)
  | none, [] => .ok (state.push (.closing (.point length))).items.reverse

end Tagging

/-- The items of a clause of `length` bytes. -/
def Item.ofTokens (table : OperatorTable) (length : Nat) (tokens : List Token) :
    Except SyntaxError (List Item) := do
  let state ← tokens.foldlM (Tagging.step table) .initial
  state.finish length

end WhereClause
