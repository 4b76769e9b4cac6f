import WhereClause.Config.Error
import WhereClause.Text.Upper

/-!
# Operators

The operators of clauses. The built-in ones have a fixed text and a fixed number of operands; a
configuration may add others. The prefix minus shares its text with subtraction.
-/

namespace WhereClause

/-- The number of operands of an operator. -/
inductive Arity
  /-- One operand, after the operator. -/
  | unary
  /-- Two operands, around the operator. -/
  | binary
  /-- Three operands, the second and third around an `AND`. -/
  | ternary
deriving DecidableEq, Repr

namespace Arity

/-- The number of operands. -/
def count : Arity → Nat
  | .unary => 1
  | .binary => 2
  | .ternary => 3

/-- The arity of that many operands. -/
def ofCount : Nat → Except ConfigError Arity
  | 1 => .ok .unary
  | 2 => .ok .binary
  | 3 => .ok .ternary
  | n => .error (.invalidArity n)

@[simp]
theorem ofCount_count (arity : Arity) : ofCount arity.count = .ok arity := by
  cases arity <;> rfl

end Arity

/-- An operator. -/
inductive Operator
  /-- The product. -/
  | multiply
  /-- The quotient. -/
  | divide
  /-- The remainder. -/
  | modulo
  /-- The sum. -/
  | add
  /-- The difference. -/
  | subtract
  /-- The prefix minus. -/
  | negate
  /-- Equality. -/
  | equal
  /-- Inequality. -/
  | notEqual
  /-- Less than. -/
  | less
  /-- Greater than. -/
  | greater
  /-- At most. -/
  | lessOrEqual
  /-- At least. -/
  | greaterOrEqual
  /-- The comma, which makes a list of its operands. -/
  | comma
  /-- Logical negation. -/
  | not
  /-- The range test, the only operator with three operands. -/
  | between
  /-- Membership in a list. -/
  | isIn
  /-- Identity. -/
  | is
  /-- Pattern matching. -/
  | like
  /-- Conjunction. -/
  | and
  /-- Disjunction. -/
  | or
  /-- An operator of the configuration. -/
  | custom (symbol : String) (arity : Arity)
deriving DecidableEq, Repr, Inhabited

namespace Operator

/-- The text of an operator. -/
def symbol : Operator → String
  | .multiply => "*"
  | .divide => "/"
  | .modulo => "%"
  | .add => "+"
  | .subtract => "-"
  | .negate => "-"
  | .equal => "="
  | .notEqual => "!="
  | .less => "<"
  | .greater => ">"
  | .lessOrEqual => "<="
  | .greaterOrEqual => ">="
  | .comma => ","
  | .not => "NOT"
  | .between => "BETWEEN"
  | .isIn => "IN"
  | .is => "IS"
  | .like => "LIKE"
  | .and => "AND"
  | .or => "OR"
  | .custom symbol _ => symbol

/-- The number of operands. -/
def arity : Operator → Arity
  | .negate => .unary
  | .not => .unary
  | .between => .ternary
  | .custom _ arity => arity
  | _ => .binary

/-- Whether the operator stands before its only operand. -/
def isPrefix (op : Operator) : Bool :=
  op.arity = .unary

/-- The built-in operators by precedence, those that bind tightest first. -/
def standardTiers : List (List Operator) :=
  [[.multiply, .divide, .modulo],
    [.add, .subtract],
    [.equal, .notEqual, .less, .greater, .lessOrEqual, .greaterOrEqual],
    [.comma],
    [.not],
    [.between, .isIn, .is, .like],
    [.and],
    [.or]]

/-- The built-in operator of a text, in either case of ASCII letters. A minus is a subtraction here;
only its place in a clause makes it a prefix. -/
def builtin? (text : String) : Option Operator :=
  standardTiers.flatten.find? fun op => op.symbol == Text.asciiUpper text

/-- The operator that an upper-case text and a number of operands stand for. -/
def ofEntry (text : String) (arity : Arity) : Except ConfigError Operator :=
  match builtin? text with
  | some op =>
    if op.arity = arity then .ok op else .error (.arityMismatch text op.arity.count arity.count)
  | none =>
    if arity = .ternary then
      .error (.unsupportedArity text arity.count)
    else
      .ok (.custom text arity)

/-! ## Operators of entries -/

theorem symbol_of_builtin? {text : String} {op : Operator} (h : builtin? text = some op) :
    op.symbol = Text.asciiUpper text := by
  simpa using List.find?_some h

theorem symbol_of_ofEntry {text : String} {arity : Arity} {op : Operator}
    (hu : Text.asciiUpper text = text) (h : ofEntry text arity = .ok op) : op.symbol = text := by
  unfold ofEntry at h
  split at h
  · rename_i found hf
    split at h
    · cases h
      rw [symbol_of_builtin? hf, hu]
    · cases h
  · split at h
    · cases h
    · cases h
      rfl

theorem ne_negate_of_ofEntry {text : String} {arity : Arity} {op : Operator}
    (h : ofEntry text arity = .ok op) : op ≠ .negate := by
  unfold ofEntry at h
  split at h
  · rename_i found hf
    split at h
    · cases h
      rintro rfl
      exact absurd (List.mem_of_find?_eq_some hf) (by decide)
    · cases h
  · split at h
    · cases h
    · cases h
      simp

theorem eq_between_of_mem_standardTiers :
    ∀ op ∈ standardTiers.flatten, op.arity = .ternary → op = .between := by
  decide

theorem eq_between_of_ofEntry {text : String} {arity : Arity} {op : Operator}
    (h : ofEntry text arity = .ok op) (ht : op.arity = .ternary) : op = .between := by
  unfold ofEntry at h
  split at h
  · rename_i found hf
    split at h
    · cases h
      exact eq_between_of_mem_standardTiers op (List.mem_of_find?_eq_some hf) ht
    · cases h
  · split at h
    · cases h
    · cases h
      contradiction

end Operator

end WhereClause
