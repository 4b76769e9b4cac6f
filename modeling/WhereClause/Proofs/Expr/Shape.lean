import WhereClause.Expr.Basic
import WhereClause.Proofs.Literal.Reading

/-!
# Shapes of trees

The trees that a standard parser gives are not all trees. Outside of the lists after `IN` a list has
no lists as elements, and a name is no operator; inside of them a name may be any word or symbol,
and no list has a list as its only element. All operators have the operands that they need.

The predicate `Expr.Shaped` says so, for a given condition on the leaves. Its Boolean tells whether
the tree stands inside of a list after `IN`.
-/

namespace WhereClause

namespace Expr

/-! ## Trees -/

/-- Induction over trees, with a hypothesis for each subtree. -/
@[elab_as_elim]
theorem induction_subtrees {motive : Expr → Prop} (operand : ∀ x, motive (.operand x))
    (list : ∀ items, (∀ e ∈ items, motive e) → motive (.list items))
    (operation : ∀ op operands, (∀ e ∈ operands, motive e) → motive (.operation op operands)) :
    ∀ e, motive e
  | .operand x => operand x
  | .list items => list items fun e he => by
    have := List.sizeOf_lt_of_mem he
    exact induction_subtrees operand list operation e
  | .operation op operands => operation op operands fun e he => by
    have := List.sizeOf_lt_of_mem he
    exact induction_subtrees operand list operation e
termination_by e => sizeOf e

mutual

/-- The operands at the leaves of a tree, from left to right. -/
def leaves : Expr → List Operand
  | .operand x => [x]
  | .list items => leavesAll items
  | .operation _ operands => leavesAll operands

/-- The operands at the leaves of all trees. -/
def leavesAll : List Expr → List Operand
  | [] => []
  | e :: rest => leaves e ++ leavesAll rest

end

theorem leavesAll_eq (es : List Expr) : leavesAll es = es.flatMap leaves := by
  induction es with
  | nil => rfl
  | cons e rest ih => rw [leavesAll, ih, List.flatMap_cons]

theorem leaves_list (items : List Expr) : (Expr.list items).leaves = items.flatMap leaves := by
  rw [leaves, leavesAll_eq]

theorem leaves_operation (op : Operator) (operands : List Expr) :
    (Expr.operation op operands).leaves = operands.flatMap leaves := by
  rw [leaves, leavesAll_eq]

/-- The elements of an expression have the same leaves. -/
theorem flatMap_leaves_elements (e : Expr) : e.elements.flatMap leaves = e.leaves := by
  cases e with
  | list items => rw [elements, leaves_list]
  | operand x => simp [elements]
  | operation op operands => simp [elements]

/-! ## Shapes -/

/-- The shape of a tree whose leaves meet the condition `P`, in a list after `IN` if `listed`
holds. -/
inductive Shaped (P : Bool → Operand → Prop) : Bool → Expr → Prop
  | operand {listed : Bool} {x : Operand} : P listed x → Shaped P listed (.operand x)
  | list {listed : Bool} {items : List Expr} : (∀ e ∈ items, Shaped P listed e) →
    (listed = false → ∀ e ∈ items, e.isList = false) →
    (listed = true → ∀ inner, items ≠ [.list inner]) → Shaped P listed (.list items)
  | isIn {listed : Bool} {x : Expr} {items : List Expr} : Shaped P listed x →
    Shaped P true (.list items) → Shaped P listed (.operation .isIn [x, .list items])
  | operation {listed : Bool} {op : Operator} {operands : List Expr} :
    op ∈ OperatorTable.standard.tiers.flatten → op ≠ .isIn → op ≠ .comma →
    operands.length = op.arity.count → (∀ e ∈ operands, Shaped P listed e) →
    Shaped P listed (.operation op operands)

namespace Shaped

variable {P Q : Bool → Operand → Prop} {listed : Bool} {e : Expr}

theorem elements (h : Shaped P listed e) : ∀ x ∈ e.elements, Shaped P listed x := by
  cases h with
  | list hi _ _ => exact hi
  | operand hx => simpa [Expr.elements] using Shaped.operand hx
  | isIn hx hy => simpa [Expr.elements] using Shaped.isIn hx hy
  | operation hm hne hc hlen he =>
    simpa [Expr.elements] using Shaped.operation hm hne hc hlen he

theorem not_isList_of_mem_elements (h : Shaped P false e) : ∀ x ∈ e.elements, x.isList = false := by
  cases h with
  | list _ hn _ => exact hn rfl
  | operand => simp [Expr.elements, isList]
  | isIn => simp [Expr.elements, isList]
  | operation => simp [Expr.elements, isList]

theorem elements_ne (h : Shaped P true e) (inner : List Expr) : e.elements ≠ [.list inner] := by
  cases h with
  | list _ _ hs => exact hs rfl inner
  | operand => simp [Expr.elements]
  | isIn => simp [Expr.elements]
  | operation => simp [Expr.elements]

/-- The elements of two trees, the second of which stands outside of the lists after `IN`. -/
theorem join {x y : Expr} (hx : Shaped P listed x) (hy : ∀ l, Shaped P l y) :
    Shaped P listed (.list (x.elements ++ y.elements)) := by
  refine .list (List.forall_mem_append.2 ⟨hx.elements, (hy listed).elements⟩) ?_ ?_
  · rintro rfl
    exact List.forall_mem_append.2
      ⟨hx.not_isList_of_mem_elements, (hy false).not_isList_of_mem_elements⟩
  · rintro rfl inner hinner
    rcases List.append_eq_singleton_iff.1 hinner with ⟨-, hinner⟩ | ⟨hinner, -⟩
    · exact (hy true).elements_ne inner hinner
    · exact hx.elements_ne inner hinner

theorem leaf (h : Shaped P listed e) : ∀ x ∈ e.leaves, ∃ l, P l x := by
  have hall {es : List Expr} (ih : ∀ e ∈ es, ∀ x ∈ e.leaves, ∃ l, P l x) :
      ∀ x ∈ es.flatMap leaves, ∃ l, P l x := by
    intro x hx
    obtain ⟨e, he, hx⟩ := List.mem_flatMap.1 hx
    exact ih e he x hx
  induction h with
  | operand hx =>
    intro y hy
    rw [leaves, List.mem_singleton] at hy
    exact ⟨_, hy ▸ hx⟩
  | list _ _ _ ih =>
    rw [leaves_list]
    exact hall ih
  | isIn _ _ ihx ihy =>
    rw [leaves_operation]
    exact hall (List.forall_mem_cons.2 ⟨ihx, by simpa using ihy⟩)
  | operation _ _ _ _ _ ih =>
    rw [leaves_operation]
    exact hall ih

/-- A condition that follows for all leaves may take the place of the other. -/
theorem imp (h : Shaped P listed e) (hPQ : ∀ x ∈ e.leaves, ∀ l, P l x → Q l x) :
    Shaped Q listed e := by
  induction h with
  | operand hx => exact .operand (hPQ _ (by simp [leaves]) _ hx)
  | list _ hn hs ih =>
    rw [leaves_list] at hPQ
    exact .list (fun e he => ih e he fun x hx => hPQ x (List.mem_flatMap.2 ⟨e, he, hx⟩)) hn hs
  | isIn _ _ ihx ihy =>
    rw [leaves_operation] at hPQ
    exact .isIn (ihx fun x hx => hPQ x (by simp [hx])) (ihy fun x hx => hPQ x (by simp [hx]))
  | operation hm hne hc hlen _ ih =>
    rw [leaves_operation] at hPQ
    exact .operation hm hne hc hlen fun e he =>
      ih e he fun x hx => hPQ x (List.mem_flatMap.2 ⟨e, he, hx⟩)

end Shaped

end Expr

/-! ## Leaves -/

namespace Operand

/-- What a name is made of: a word that is no literal, and no operator either if it stands outside
of the lists after `IN`; or, inside of them, the symbol of an operator. -/
def IsName (listed : Bool) (name : String) : Prop :=
  (Lexicon.IsWord name.toList ∧ Literal.ofWord? name = none ∧
      (listed = false → OperatorTable.standard.get? name = none)) ∨
    listed = true ∧ name.toList ∈ Lexicon.standard.symbols ∧ name ∉ ["(", ")", ","]

/-- A leaf as a standard parser gives it. -/
def Parsed (listed : Bool) : Operand → Prop
  | .literal value => value ≠ .integer Int64.minValue
  | .identifier name => IsName listed name

/-- The operand is no float, or its text, taken for itself, is a text of an equal number. -/
def readsBack : Operand → Bool
  | .literal (.float x) => Literal.readsBack x
  | _ => true

/-- A leaf with a text that can be read. -/
def Readable (listed : Bool) : Operand → Prop
  | .literal (.string _) => True
  | .literal value => value.Written value.render.toList
  | .identifier name => IsName listed name

theorem IsName.loosen {name : String} (h : IsName false name) : IsName true name := by
  rcases h with ⟨hw, hn, -⟩ | ⟨hf, -⟩
  · exact .inl ⟨hw, hn, by simp⟩
  · cases hf

theorem Parsed.loosen {x : Operand} (h : Parsed false x) : Parsed true x := by
  cases x with
  | literal value => exact h
  | identifier name => exact IsName.loosen h

theorem Parsed.readable {listed : Bool} {x : Operand} (h : Parsed listed x)
    (hf : x.readsBack = true) : Readable listed x := by
  cases x with
  | identifier name => exact h
  | literal value =>
    cases value with
    | string text => trivial
    | float y => exact Literal.written_float hf
    | integer n => exact Literal.written_integer fun he => h (he ▸ rfl)
    | null => exact Literal.written_null
    | boolean b => exact Literal.written_boolean b

end Operand

end WhereClause
