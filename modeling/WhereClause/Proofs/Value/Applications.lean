import WhereClause.Proofs.Value.Places

/-!
# Operators that are applied

The operators that are applied when an item is folded are recorded here with the values that they
find. They find their operands in the group that is open, so that an item is refused on its arrival,
or for a `BETWEEN` or an `IN` that is applied, and for nothing else. A separator finds the `BETWEEN`
to which it belongs.
-/

namespace WhereClause

variable {t : OperatorTable} {σ : Type} {f : Evaluator σ}

namespace Stacks

variable {state : Stacks} {values : List Stacked} {waiting : List Waiting} {item : Item}
  {p : Operator → Bool → Bool}

/-! ## Applications -/

/-- An operator that is applied: the values that it finds, and what waits below it. -/
structure Application where
  /-- The operator. -/
  operator : Operator
  /-- Where the operator stands. -/
  span : Span
  /-- Whether it is a `BETWEEN` that has its `AND`. -/
  separated : Bool
  /-- The values on the stack. -/
  values : List Stacked
  /-- What waits below the operator. -/
  waiting : List Waiting

/-- The values after the application. -/
def Application.run (f : Evaluator σ) (a : Application) : Folding σ (List Stacked) :=
  apply f a.operator a.span a.separated a.values

/-- The operator as it waits on the stack. -/
def Application.entry (a : Application) : Waiting :=
  .operator a.operator a.span a.separated

/-- The number of values before the innermost group that is open. -/
def base : List Waiting → Nat
  | [] => 0
  | .opening _ height :: _ => height
  | .operator _ _ _ :: waiting => base waiting

/-- The operator finds all its operands in the innermost group that is open; a `BETWEEN` that has no
`AND` does not look for any. -/
def Application.Supplied (a : Application) : Prop :=
  a.operator = .between ∧ a.separated = false ∨
    base a.waiting + a.operator.arity.count ≤ a.values.length

/-- The applications of `applyWhile`, from the evaluator's state `s`. -/
def applications (f : Evaluator σ) (p : Operator → Bool → Bool) (s : σ) (values : List Stacked) :
    List Waiting → List Application
  | .operator op span separated :: waiting =>
    if p op separated then
      ⟨op, span, separated, values, waiting⟩ ::
        match (apply f op span separated values).run.run s with
        | (.ok values, s) => applications f p s values waiting
        | (.error _, _) => []
    else
      []
  | _ => []

/-- The applications when an item is folded, from the evaluator's state `s`. -/
def applicationsAt (f : Evaluator σ) (t : OperatorTable) (state : Stacks) (item : Item) (s : σ) :
    List Application :=
  match state.arrive t item with
  | .ok values => applications f (takes t item) s values state.waiting
  | .error _ => []

variable {s s' : σ} {err : SyntaxError} {a : Application} {op : Operator} {span : Span}
  {separated : Bool}

theorem applications_of_stops (h : Stops p waiting) : applications f p s values waiting = [] := by
  rcases waiting with - | ⟨_ | ⟨op, span, separated⟩, rest⟩
  · rfl
  · rfl
  · have hp : p op separated = false := h
    simp [applications, hp]

/-- An application is the first one, or it comes after that. -/
theorem of_mem_applications_cons
    (h : a ∈ applications f p s values (.operator op span separated :: waiting)) :
    a = ⟨op, span, separated, values, waiting⟩ ∨ ∃ values' s',
      Gives (apply f op span separated values) s values' s' ∧
        a ∈ applications f p s' values' waiting := by
  rw [applications] at h
  split at h
  · rcases List.mem_cons.1 h with h | h
    · exact .inl h
    · split at h
      · rename_i values' s' hrun
        exact .inr ⟨values', s', hrun, h⟩
      · cases h
  · cases h

/-- A run of applications fails with the error of one of them. -/
theorem exists_application_of_fails (h : Fails (applyWhile f p values waiting) s err s') :
    ∃ a ∈ applications f p s values waiting, ∃ s₁, Fails (a.run f) s₁ err s' := by
  induction waiting generalizing values s with
  | nil => exact absurd h not_fails_pure
  | cons first rest ih =>
    cases first with
    | opening => exact absurd h not_fails_pure
    | operator op span separated =>
      rw [applyWhile] at h
      rw [applications]
      split at h
      · rename_i hp
        rw [if_pos hp]
        rcases fails_bind_iff.1 h with h | ⟨values', s₁, hg, h⟩
        · exact ⟨_, List.mem_cons_self, s, h⟩
        · obtain ⟨a, ha, s₂, hf⟩ := ih h
          refine ⟨a, List.mem_cons_of_mem _ ?_, s₂, hf⟩
          rw [show (apply f op span separated values).run.run s = _ from hg]
          exact ha
      · exact absurd h not_fails_pure

/-- The operators that are applied are those that leave the stack. -/
theorem waiting_eq_of_gives {r : List Stacked × List Waiting}
    (h : Gives (applyWhile f p values waiting) s r s') :
    waiting = (applications f p s values waiting).map Application.entry ++ r.2 := by
  induction waiting generalizing values s with
  | nil =>
    obtain ⟨rfl, -⟩ := gives_pure_iff.1 h
    rfl
  | cons first rest ih =>
    cases first with
    | opening =>
      obtain ⟨rfl, -⟩ := gives_pure_iff.1 h
      rfl
    | operator op span separated =>
      rw [applyWhile] at h
      rw [applications]
      split at h
      · rename_i hp
        obtain ⟨values', s₁, hg, h⟩ := gives_bind_iff.1 h
        rw [if_pos hp, show (apply f op span separated values).run.run s = _ from hg]
        exact congrArg (Waiting.operator op span separated :: ·) (ih h)
      · rename_i hp
        obtain ⟨rfl, -⟩ := gives_pure_iff.1 h
        rw [if_neg hp]
        rfl

/-- An item that is read has found its place when some operators had been applied. -/
theorem exists_settle_of_gives {state' : Stacks} (h : Gives (step f t state item) s state' s') :
    ∃ values waiting,
      state.waiting = (applicationsAt f t state item s).map Application.entry ++ waiting ∧
        settle values waiting item = .ok state' := by
  obtain ⟨values, r, harrive, hg, hsettle⟩ := gives_step_iff.1 h
  refine ⟨r.1, r.2, ?_, hsettle⟩
  rw [applicationsAt, harrive]
  exact waiting_eq_of_gives hg

/-! ## What an application finds -/

variable {lacks : Bool} {items : List Item}

theorem Holds.base_le_length (h : Holds lacks items values waiting) :
    base waiting ≤ values.length := by
  induction h with
  | nil => exact Nat.le_refl 0
  | opening => exact Nat.le_refl _
  | operator _ ih | separator _ ih => exact ih
  | value _ _ ih => exact Nat.le_succ_of_le ih

theorem Holds.supplied
    (h : Holds false items values (.operator op span separated :: waiting))
    (hi : Item.Regular t items) :
    Application.Supplied ⟨op, span, separated, values, waiting⟩ := by
  by_cases hs : op = .between ∧ (!separated) = true
  · exact .inl ⟨hs.1, by simpa using hs.2⟩
  · have hframed := h.framed hi hs
    obtain ⟨u, w, -, hu, -⟩ := hframed.word
    have hbase := hu.base_le_length
    have henough := hframed.enough
    rw [List.length_drop] at hbase
    exact .inr (by dsimp only; omega)

/-- The stacks hold the items before each application. -/
theorem Holds.supplied_of_mem (h : Holds false items values waiting) (hi : Item.Regular t items)
    (ha : a ∈ applications f p s values waiting) : a.Supplied := by
  induction waiting generalizing values s with
  | nil => cases ha
  | cons first rest ih =>
    cases first with
    | opening => cases ha
    | operator op span separated =>
      rcases of_mem_applications_cons ha with rfl | ⟨values', s', hg, ha⟩
      · exact h.supplied hi
      · exact ih ((halts_apply h hi).gives hg) ha

/-! ## Items that are read -/

theorem supplied_of_mem_applicationsAt
    (h : Holds state.lacksOperand items state.values state.waiting) (hi : Item.Regular t items)
    (ha : a ∈ applicationsAt f t state item s) : a.Supplied := by
  unfold applicationsAt at ha
  split at ha
  · rename_i values harrive
    cases hl : state.lacksOperand with
    | true =>
      rw [applications_of_stops (stops_of_arrive hl harrive)] at ha
      cases ha
    | false =>
      rw [hl, ← eq_of_arrive hl harrive] at h
      exact h.supplied_of_mem hi ha
  · cases ha

/-- An item is refused on its arrival or by an operator that is applied, but not afterwards. -/
theorem refused_of_fails (h : Holds state.lacksOperand items state.values state.waiting)
    (hi : Item.Continues t items item) (hf : Fails (step f t state item) s err s') :
    state.arrive t item = .error err ∨ ∃ a ∈ applicationsAt f t state item s,
      err.isLate = true ∧ ∃ s₁, Fails (a.run f) s₁ err s' := by
  rcases fails_step_iff.1 hf with ⟨harrive, -⟩ | ⟨values, harrive, hf | ⟨r, hg, hsettle⟩⟩
  · exact .inl harrive
  · obtain ⟨a, ha, s₂, hfails⟩ := exists_application_of_fails hf
    have hmem : a ∈ applicationsAt f t state item s := by
      rw [applicationsAt, harrive]
      exact ha
    have henough := (supplied_of_mem_applicationsAt h hi.regular hmem).imp_right
      Nat.le_of_add_left_le
    exact .inr ⟨a, hmem, isLate_of_fails_apply henough hfails, s₂, hfails⟩
  · obtain ⟨state', hok, -⟩ := exists_holds_of_gives h hi harrive hg
    cases hok.symm.trans hsettle

/-! ## The `BETWEEN` of a separator -/

end Stacks

/-- Whether it is an operator that waits. -/
def Waiting.isOperator : Waiting → Bool
  | .operator _ _ _ => true
  | .opening _ _ => false

/-- Whether it is a `BETWEEN` that lacks its `AND`. -/
def Waiting.lacksSeparator : Waiting → Bool
  | .operator op _ separated => op = .between && !separated
  | .opening _ _ => false

namespace Stacks

variable {lacks : Bool} {items : List Item} {values : List Stacked} {waiting : List Waiting}
  {stop : Span}

/-- The number of `BETWEEN`s in the innermost open group that lack their `AND`. -/
def unseparated (waiting : List Waiting) : Nat :=
  (waiting.takeWhile Waiting.isOperator).countP Waiting.lacksSeparator

theorem unseparated_operator {op : Operator} {span : Span} {separated : Bool} :
    unseparated (.operator op span separated :: waiting) =
      (if op = .between ∧ separated = false then 1 else 0) + unseparated waiting := by
  rw [unseparated, List.takeWhile_cons_of_pos rfl, List.countP_cons, Nat.add_comm, unseparated]
  simp [Waiting.lacksSeparator]

/-- The `BETWEEN`s of the innermost open group that lack their `AND` are on the stack. -/
theorem Holds.exists_group (h : Holds lacks items values waiting) :
    Item.Balanced items ∨ ∃ before start group, items = before ++ .opening start :: group ∧
      Item.Balanced group ∧ (Item.direct group).countP Item.isBetween =
        (Item.direct group).countP Item.isSeparator + unseparated waiting := by
  induction h with
  | nil => exact .inl .nil
  | @opening u _ waiting span _ _ => exact .inr ⟨u, span, [], by simp, .nil, rfl⟩
  | @operator u _ waiting op span _ ih =>
    rcases ih with hb | ⟨before, start, group, rfl, hb, hcount⟩
    · exact .inl (hb.push rfl)
    · refine .inr ⟨before, start, group ++ [.operator op span], by simp, hb.push rfl, ?_⟩
      have hzero : (Item.direct [.operator op span]).countP Item.isSeparator = 0 := rfl
      have hone : (Item.direct [.operator op span]).countP Item.isBetween =
          if op = .between ∧ false = false then 1 else 0 := by
        by_cases hop : op = .between
        · rw [hop]
          rfl
        · simp [Item.direct, Item.directAt, Item.isBetween, hop]
      rw [hb.direct_append, List.countP_append, List.countP_append, unseparated_operator]
      omega
  | @separator u _ waiting span stop _ ih =>
    rcases ih with hb | ⟨before, start, group, rfl, hb, hcount⟩
    · exact .inl (hb.push rfl)
    · refine .inr ⟨before, start, group ++ [.separator stop], by simp, hb.push rfl, ?_⟩
      have hone : (Item.direct [.separator stop]).countP Item.isSeparator = 1 := rfl
      have hzero : (Item.direct [.separator stop]).countP Item.isBetween = 0 := rfl
      rw [unseparated_operator, if_pos ⟨rfl, rfl⟩] at hcount
      rw [hb.direct_append, List.countP_append, List.countP_append, unseparated_operator,
        if_neg (by simp)]
      omega
  | @value u w x _ waiting _ hx ih =>
    rcases ih with hb | ⟨before, start, group, rfl, hb, hcount⟩
    · exact .inl (hb.append hx.balanced)
    · refine .inr ⟨before, start, group ++ w, by simp, hb.append hx.balanced, ?_⟩
      have heven := hx.even
      rw [hb.direct_append, List.countP_append, List.countP_append]
      omega

/-- A separator finds its `BETWEEN` in the innermost open group. -/
theorem Holds.exists_between (h : Holds lacks items values waiting)
    (hi : Item.Regular t (items ++ [.separator stop])) :
    ∃ span, .operator .between span false ∈ waiting.takeWhile Waiting.isOperator := by
  rcases h.exists_group with hb | ⟨before, start, group, rfl, hb, hcount⟩
  · exact (hi.not_separator_of_balanced hb).elim
  · have hpos : 0 < unseparated waiting := by
      by_contra hzero
      exact hi.not_separator hb (by omega)
    obtain ⟨w, hw, hl⟩ := List.countP_pos_iff.1 hpos
    cases w with
    | opening => cases hl
    | operator op span separated =>
      obtain ⟨rfl, rfl⟩ : op = .between ∧ separated = false := by
        simpa [Waiting.lacksSeparator] using hl
      exact ⟨span, hw⟩

end Stacks

end WhereClause
