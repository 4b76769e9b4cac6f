import WhereClause.Proofs.Strategies

/-!
# Operators and their operands

Wherever an operator is applied, it has the operands that it needs: in every operation of a tree,
and in every call of an evaluator, those before an error included. On the right of an `IN` there is
a list. A comma is never applied, since it only makes lists.

For trees this is a matter of the grammar. For calls it follows from the stacks, whatever the items:
an operator takes its operands off the stack only if there are enough, and a value that counts as a
list is an array.
-/

namespace WhereClause

/-- The operator is applied to as many operands as it needs, and an `IN` to a list on its right. A
comma is not applied at all. -/
structure Operator.Applies {α : Type} (isList : α → Prop) (op : Operator) (operands : List α) :
    Prop where
  length : operands.length = op.arity.count
  ne_comma : op ≠ .comma
  target : op = .isIn → ∃ x list, operands = [x, list] ∧ isList list

/-! ## Trees -/

namespace Expr

mutual

/-- The operations anywhere in a tree, each with its operator and its operands. -/
def operations : Expr → List (Operator × List Expr)
  | .operand _ => []
  | .list items => operationsAll items
  | .operation op operands => (op, operands) :: operationsAll operands

/-- The operations in trees. -/
def operationsAll : List Expr → List (Operator × List Expr)
  | [] => []
  | e :: rest => e.operations ++ operationsAll rest

end

theorem operationsAll_eq (es : List Expr) : operationsAll es = es.flatMap operations := by
  induction es with
  | nil => rfl
  | cons e rest ih => rw [operationsAll, ih, List.flatMap_cons]

/-- All operations of the tree have the operands that they need. -/
def Applied (e : Expr) : Prop :=
  ∀ o ∈ e.operations, o.1.Applies (fun x => x.isList = true) o.2

theorem applied_list {items : List Expr} (h : ∀ e ∈ items, e.Applied) : (list items).Applied := by
  intro o ho
  rw [operations, operationsAll_eq] at ho
  obtain ⟨e, he, ho⟩ := List.mem_flatMap.1 ho
  exact h e he o ho

theorem applied_operation {op : Operator} {operands : List Expr}
    (hop : op.Applies (fun x => x.isList = true) operands) (h : ∀ e ∈ operands, e.Applied) :
    (operation op operands).Applied := by
  intro o ho
  rw [operations, List.mem_cons] at ho
  rcases ho with rfl | ho
  · exact hop
  · exact applied_list h o ho

theorem Applied.elements {e : Expr} (h : e.Applied) : ∀ x ∈ e.elements, x.Applied := by
  cases e with
  | list items =>
    intro x hx o ho
    refine h o ?_
    rw [operations, operationsAll_eq]
    exact List.mem_flatMap.2 ⟨x, hx, ho⟩
  | operand x => simpa [Expr.elements] using h
  | operation op operands => simpa [Expr.elements] using h

/-- A tree of two operands has the operations of these, and one more unless it is a list. -/
theorem Applied.binary? {op : Operator} {x y e : Expr} (ha : op.arity = .binary)
    (hx : x.Applied) (hy : y.Applied) (h : Expr.binary? op x y = some e) : e.Applied := by
  have hboth : ∀ z ∈ [x, y], z.Applied := by simpa using ⟨hx, hy⟩
  have hlength : [x, y].length = op.arity.count := by rw [ha]; rfl
  unfold Expr.binary? at h
  split at h
  · split at h
    · rename_i hlist
      cases h
      exact applied_operation ⟨hlength, by simp, fun _ => ⟨x, y, rfl, hlist⟩⟩ hboth
    · cases h
  · cases h
    exact applied_list (List.forall_mem_append.2 ⟨hx.elements, hy.elements⟩)
  · rename_i hin hcomma
    cases h
    exact applied_operation ⟨hlength, hcomma, fun h => absurd h hin⟩ hboth

end Expr

namespace Element

mutual

/-- A literal list has no operations. -/
theorem operations_toExpr : ∀ e : Element, e.toExpr.operations = []
  | .operand _ => rfl
  | .list elements => by
    rw [toExpr, Expr.operations]
    exact operations_toExprs elements

theorem operations_toExprs : ∀ es : List Element, Expr.operationsAll (toExprs es) = []
  | [] => rfl
  | e :: rest => by
    rw [toExprs, Expr.operationsAll, operations_toExpr e, operations_toExprs rest]
    rfl

end

end Element

/-- The trees that the grammar derives have the operands that their operators need. -/
theorem Grammar.Derives.applied {t : OperatorTable} {c : Category} {w : List Item} {e : Expr}
    (h : Derives t c w e) : e.Applied := by
  induction h with
  | operand => simp [Expr.Applied, Expr.operations]
  | list => simp [Expr.Applied, Expr.operations, Element.operations_toExprs]
  | empty => exact Expr.applied_list (by simp)
  | group _ ih | bare _ ih | single _ ih => exact ih
  | @unary k op span w e _ hp _ ih =>
    have ha : op.arity = .unary := by simpa [Operator.isPrefix] using hp
    refine Expr.applied_operation ⟨by rw [ha]; rfl, ?_, ?_⟩ (by simpa using ih) <;>
      rintro rfl <;> cases ha
  | binary _ ha _ _ hb ihx ihy => exact ihx.binary? ha ihy hb
  | between _ _ _ _ ihx ihl ihh =>
    exact Expr.applied_operation ⟨rfl, by simp, by simp⟩ (by simpa using ⟨ihx, ihl, ihh⟩)

/-! ## Calls -/

/-- The value is an array. -/
def Value.IsArray (v : Value) : Prop :=
  ∃ items, v = .array items

namespace Call

/-- All calls on record have the operands that their operators need. -/
def Applied {σ : Type} (state : σ × List Call) : Prop :=
  ∀ call ∈ state.2, call.operator.Applies Value.IsArray call.operands

end Call

namespace Stacked

/-- A value that counts as a list is an array. -/
def Listed (x : Stacked) : Prop :=
  x.isList = true → x.value.IsArray

/-- Of two operands that an `IN` accepts, the right one is an array. -/
theorem applies {op : Operator} {operands : List Stacked}
    (hlength : operands.length = op.arity.count) (hcomma : op ≠ .comma)
    (hl : ∀ x ∈ operands, x.Listed) (ht : invalidTarget? op operands = none) :
    op.Applies Value.IsArray (operands.map Stacked.value) where
  length := by rw [List.length_map, hlength]
  ne_comma := hcomma
  target := by
    rintro rfl
    obtain ⟨x, y, rfl⟩ := List.length_eq_two.1 hlength
    have hy : y.isList = true := by simpa [invalidTarget?] using ht
    exact ⟨x.value, y.value, rfl, hl y (by simp) hy⟩

end Stacked

namespace Stacks

variable {σ : Type} {f : Evaluator σ} {table : OperatorTable} {values : List Stacked}

theorem keeps_recorded {op : Operator} {operands : List Value}
    (h : op.Applies Value.IsArray operands) :
    Keeps Call.Applied (liftM (f.recorded op operands) : Folding (σ × List Call) Value)
      fun _ => True where
  gives hs hg := by
    cases gives_liftState_iff.1 hg
    exact ⟨List.forall_mem_append.2 ⟨hs, by simpa using h⟩, trivial⟩
  fails _ hf := absurd hf not_fails_liftState

theorem keeps_combine {op : Operator} {span : Span} {operands : List Stacked}
    (hlength : operands.length = op.arity.count) (hl : ∀ x ∈ operands, x.Listed) :
    Keeps Call.Applied (combine f.recorded op span operands) Stacked.Listed := by
  unfold combine
  dsimp only
  split
  · exact keeps_throw _
  · rename_i ht
    split
    · exact keeps_pure fun _ => ⟨_, rfl⟩
    · rename_i hcomma
      refine (keeps_recorded (Stacked.applies hlength hcomma hl ht)).bind fun v _ => ?_
      exact keeps_pure fun h => by cases h

theorem keeps_apply {op : Operator} {span : Span} {separated : Bool}
    (hl : ∀ x ∈ values, x.Listed) :
    Keeps Call.Applied (apply f.recorded op span separated values)
      fun values' => ∀ x ∈ values', x.Listed := by
  unfold apply
  split
  · exact keeps_throw _
  · split
    · exact keeps_throw _
    · rename_i hlt
      have hlength : (values.take op.arity.count).reverse.length = op.arity.count := by
        rw [List.length_reverse, List.length_take]
        omega
      have htake : ∀ x ∈ (values.take op.arity.count).reverse, x.Listed := fun x hx =>
        hl x (List.mem_of_mem_take (List.mem_reverse.1 hx))
      refine (keeps_combine hlength htake).bind fun y hy => keeps_pure ?_
      exact List.forall_mem_cons.2 ⟨hy, fun x hx => hl x (List.mem_of_mem_drop hx)⟩

/-- Of the two stacks, the values are listed. -/
def Listed (pair : List Stacked × List Waiting) : Prop :=
  ∀ x ∈ pair.1, x.Listed

theorem keeps_applyWhile {p : Operator → Bool → Bool} (waiting : List Waiting)
    (hl : ∀ x ∈ values, x.Listed) :
    Keeps Call.Applied (applyWhile f.recorded p values waiting) Listed := by
  induction waiting generalizing values with
  | nil => exact keeps_pure hl
  | cons first rest ih =>
    cases first with
    | opening span height => exact keeps_pure hl
    | operator first span separated =>
      rw [applyWhile]
      split
      · exact (keeps_apply hl).bind fun _ h => ih h
      · exact keeps_pure hl

variable {state : Stacks} {item : Item}

theorem listed_arrive (hl : ∀ x ∈ state.values, x.Listed)
    (h : state.arrive table item = .ok values) : ∀ x ∈ values, x.Listed := by
  rcases of_arrive h with ⟨-, rfl⟩ | ⟨-, ⟨stop, rfl | rfl⟩, -⟩
  · exact hl
  · obtain ⟨_, -, h⟩ := bind_eq_ok_iff.1 h
    cases h
    exact hl
  · rw [arrive, closeGroup] at h
    split_ifs at h
    · cases h
      exact List.forall_mem_cons.2 ⟨fun _ => ⟨_, rfl⟩, hl⟩
    · obtain ⟨_, -, h⟩ := bind_eq_ok_iff.1 h
      cases h
      exact hl

theorem listed_settle {waiting : List Waiting} (hl : ∀ x ∈ values, x.Listed)
    (h : settle values waiting item = .ok state) : ∀ x ∈ state.values, x.Listed := by
  cases item with
  | opening | operator =>
    cases h
    exact hl
  | operand x span =>
    cases h
    exact List.forall_mem_cons.2 ⟨nofun, hl⟩
  | list elements span =>
    cases h
    exact List.forall_mem_cons.2 ⟨fun _ => ⟨_, rfl⟩, hl⟩
  | separator | closing =>
    rcases waiting with - | ⟨_ | _, _⟩ <;> cases h
    exact hl

/-- An item is read with calls that have the operands that they need, whether it is refused or
not. -/
theorem keeps_step (item : Item) (hl : ∀ x ∈ state.values, x.Listed) :
    Keeps Call.Applied (step f.recorded table state item)
      fun state' => ∀ x ∈ state'.values, x.Listed := by
  rw [step_eq_phases]
  refine (keeps_liftExcept fun _ h => listed_arrive hl h).bind fun values hv => ?_
  refine (keeps_applyWhile _ hv).bind fun r hr => ?_
  exact keeps_liftExcept fun _ h => listed_settle hr h

end Stacks

theorem Value.keeps_ofItems {σ : Type} (f : Evaluator σ) (table : OperatorTable)
    (items : List Item) :
    Keeps Call.Applied (Value.ofItems f.recorded table items) fun _ => True := by
  refine (keeps_foldlM (fun _ item hl => Stacks.keeps_step item hl) items (by simp)).bind ?_
  exact fun _ _ => keeps_liftExcept fun _ _ => trivial

/-! ## Clauses -/

namespace Parser

theorem keeps_fold {σ : Type} (p : Parser) (f : Evaluator σ) (clause : String) :
    Keeps Call.Applied (p.fold f.recorded clause) fun _ => True :=
  (keeps_liftExcept fun _ _ => trivial).bind fun items _ => Value.keeps_ofItems f p.table items

theorem applied_tree {p : Parser} {clause : String} {r : Parsed} (h : p.parse clause = .ok r) :
    r.tree.Applied := by
  obtain ⟨items, x, hi, hx, rfl⟩ := parse_eq_ok_iff.1 h
  obtain ⟨body, rfl, hb, -⟩ := Item.balanced_of_ofTokens hi
  exact (Phrase.isClause_of_ofItems hb hx).1.2.applied

/-- In the tree of a clause every operator has the operands that it needs; and it has them in every
call of an evaluator, also if the clause is refused after the call. -/
theorem applies_of_parse_of_fold {σ : Type} (p : Parser) (clause : String) (f : Evaluator σ)
    (s : σ) :
    (∀ r, p.parse clause = .ok r →
        ∀ o ∈ r.tree.operations, o.1.Applies (fun x => x.isList = true) o.2) ∧
      ∀ call ∈ ((p.fold f.recorded clause).run.run (s, [])).2.2,
        call.operator.Applies Value.IsArray call.operands :=
  ⟨fun _ hr => applied_tree hr, (keeps_fold p f clause).run (by simp [Call.Applied])⟩

/-- The first clause has five operations, one of them with a list. In the second one the `OR` lacks
an operand, but the `IN` has been evaluated. -/
theorem applies_nested_and_before_error :
    (∃ r, standard.parse "c IN (1, 2) AND NOT -a BETWEEN 1 AND 2" = .ok r ∧
      r.tree.operations.map Prod.fst = [.and, .isIn, .between, .not, .negate] ∧
      ∀ o ∈ r.tree.operations, o.1.Applies (fun x => x.isList = true) o.2) ∧
    let run := (standard.fold numbered.recorded "c IN (1, 2) OR").run.run (0, [])
    run.1.isOk = false ∧ run.2.2.map Call.operator = [.isIn] ∧
      ∀ call ∈ run.2.2, call.operator.Applies Value.IsArray call.operands := by
  constructor
  · obtain ⟨r, hr, ho⟩ : ∃ r, standard.parse "c IN (1, 2) AND NOT -a BETWEEN 1 AND 2" = .ok r ∧
        decide (r.tree.operations.map Prod.fst = [.and, .isIn, .between, .not, .negate]) = true :=
      exists_eq_ok_of_any (by decide +kernel)
    exact ⟨r, hr, of_decide_eq_true ho, (applies_of_parse_of_fold standard _ numbered 0).1 r hr⟩
  · exact ⟨by decide +kernel, by decide +kernel,
      (applies_of_parse_of_fold standard _ numbered 0).2⟩

end Parser

end WhereClause
