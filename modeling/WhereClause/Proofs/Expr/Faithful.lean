import WhereClause.Proofs.Expr.Tokens

/-!
# Trees that are read back

Not every tree is read back from its text. What stands in the way is of five kinds:

* a string with an odd run of backslashes at its end or before a quote of its own kind;
* a float with a negative power of ten, the minus of which is taken for an operator;
* a number with a sign outside of the lists after `IN`;
* a list with one element outside of the lists after `IN`, which is taken for an expression in
  parentheses;
* an operation in a list after `IN`, in which operators are words.

The first two are seen from the leaves (`Operand.Legible`), the others from the tree
(`Expr.regular`).
-/

namespace WhereClause

/-! ## Leaves -/

namespace Operand

/-- An operand whose text is that of one token, or of a minus and one token. -/
def Legible : Operand → Prop
  | .literal (.string text) => Quotable text.toList
  | x => '-' ∉ x.write.tail

instance : DecidablePred Legible := fun x =>
  match x with
  | .literal (.string text) => inferInstanceAs (Decidable (Quotable text.toList))
  | .literal .null => inferInstanceAs (Decidable ('-' ∉ _))
  | .literal (.boolean _) => inferInstanceAs (Decidable ('-' ∉ _))
  | .literal (.integer _) => inferInstanceAs (Decidable ('-' ∉ _))
  | .literal (.float _) => inferInstanceAs (Decidable ('-' ∉ _))
  | .identifier _ => inferInstanceAs (Decidable ('-' ∉ _))

theorem legible_iff (x : Operand) : x.Legible ↔ x.Quotes ∧ x.Whole := by
  by_cases hs : ∃ text, x = .literal (.string text)
  · obtain ⟨text, rfl⟩ := hs
    refine ⟨fun h => ⟨fun text' ht => ?_, fun hn => by cases hn⟩, fun h => h.1 text rfl⟩
    simp only [Operand.literal.injEq, Literal.string.injEq] at ht
    exact ht ▸ h
  · have hq : x.Quotes := fun text ht => absurd ⟨text, ht⟩ hs
    have hn : x.string? = none := by
      unfold string?
      split
      · rename_i text
        exact absurd ⟨text, rfl⟩ hs
      · rfl
    have hl : x.Legible ↔ '-' ∉ x.write.tail := by
      unfold Legible
      split
      · rename_i text
        exact absurd ⟨text, rfl⟩ hs
      · rfl
    rw [hl]
    exact ⟨fun h => ⟨hq, fun _ => h⟩, fun h => h.2 hn⟩

end Operand

/-! ## Trees -/

namespace Expr

mutual

/-- No number has a sign and no list has one element, unless it stands in a list after `IN`; and
there no operation stands. -/
def regular (listed : Bool) : Expr → Bool
  | .operand x => listed || x.write.head? != some '-'
  | .list items => (listed || items.length != 1) && regularAll listed items
  | .operation .isIn [x, y] => !listed && regular false x && regular true y
  | .operation _ operands => !listed && regularAll false operands

/-- All trees are regular. -/
def regularAll (listed : Bool) : List Expr → Bool
  | [] => true
  | e :: rest => regular listed e && regularAll listed rest

end

/-- A tree that is read back from its text. -/
def Faithful (e : Expr) : Prop :=
  (∀ x ∈ e.leaves, x.Legible) ∧ e.regular false = true

instance : DecidablePred Faithful := fun _ => inferInstanceAs (Decidable (_ ∧ _))

theorem regular_operation {listed : Bool} {op : Operator} (h : op ≠ .isIn) (operands : List Expr) :
    regular listed (.operation op operands) = (!listed && regularAll false operands) := by
  unfold regular
  split <;> simp_all

theorem regular_listed (op : Operator) (operands : List Expr) :
    regular true (.operation op operands) = false := by
  unfold regular
  split <;> simp_all

end Expr

end WhereClause
