import WhereClause.Proofs.Item.Balance
import WhereClause.Proofs.Value.Folding

/-!
# Phases of a step

When an item is folded, it is first checked whether it may come; then some of the operators on the
stack are applied; and then the item finds its place on the stacks. So the three loops of a folding
are one, with three conditions for going on, and each application of an operator is made by it. What
holds of the stacks is shown for each phase, and not for each loop.
-/

namespace WhereClause

variable {t : OperatorTable} {σ : Type} {f : Evaluator σ}

namespace Stacks

/-! ## A step in three phases -/

/-- The values on the stack when the item has come, if it may. -/
def arrive (t : OperatorTable) (state : Stacks) : Item → Except SyntaxError (List Stacked)
  | .opening span => do
    state.admitOperand span
    .ok state.values
  | .operand _ span => do
    state.admitOperand span
    .ok state.values
  | .list _ span => do
    state.admitOperand span
    .ok state.values
  | .operator op span =>
    if op.isPrefix then do
      state.admitOperand span
      state.admitPrefix t op
      .ok state.values
    else if state.lacksOperand then
      .error (.missingOperand op span)
    else
      .ok state.values
  | .separator _ => do
    state.admitEnd
    .ok state.values
  | .closing span => state.closeGroup span

/-- Whether an operator on the stack is applied when the item has come. -/
def takes (t : OperatorTable) : Item → Operator → Bool → Bool
  | .operator op _, first, _ => !op.isPrefix && t.bindsTighterOrEqual first op
  | .separator _, first, separated => !(first = .between && !separated)
  | .closing _, _, _ => true
  | _, _, _ => false

/-- Applies operators on the stack as long as `p` holds. -/
def applyWhile (f : Evaluator σ) (p : Operator → Bool → Bool) (values : List Stacked) :
    List Waiting → Folding σ (List Stacked × List Waiting)
  | .operator op span separated :: waiting =>
    if p op separated then do
      let values ← apply f op span separated values
      applyWhile f p values waiting
    else
      return (values, .operator op span separated :: waiting)
  | waiting => return (values, waiting)

/-- The state with the item in its place. -/
def settle (values : List Stacked) (waiting : List Waiting) : Item → Except SyntaxError Stacks
  | .opening span => .ok ⟨values, .opening span values.length :: waiting, true⟩
  | .operand x span => .ok ⟨⟨x.toValue, false, span⟩ :: values, waiting, false⟩
  | .list elements span =>
    .ok ⟨⟨(Expr.list (Element.toExprs elements)).toValue, true, span⟩ :: values, waiting, false⟩
  | .operator op span => .ok ⟨values, .operator op span false :: waiting, true⟩
  | .separator stop =>
    match waiting with
    | .operator op span _ :: waiting => .ok ⟨values, .operator op span true :: waiting, true⟩
    | _ => .error (.malformedBetween stop)
  | .closing stop =>
    match waiting with
    | .opening _ _ :: waiting => .ok ⟨values, waiting, false⟩
    | _ => .error (.unmatchedParenthesis stop)

variable {state : Stacks} {values : List Stacked} {waiting : List Waiting} {item : Item}
  {p : Operator → Bool → Bool}

theorem applyTighter_eq (op : Operator) :
    applyTighter f t op values waiting =
      applyWhile f (fun first _ => t.bindsTighterOrEqual first op) values waiting := by
  induction waiting generalizing values with
  | nil => rfl
  | cons first rest ih =>
    cases first with
    | opening span height => rfl
    | operator first span separated =>
      rw [applyTighter, applyWhile]
      simp only [ih]

theorem takes_operator {op first : Operator} {span : Span} {separated : Bool}
    (hp : ¬ op.isPrefix) :
    takes t (.operator op span) first separated = t.bindsTighterOrEqual first op := by
  simp [takes, hp]

theorem takes_separator_iff {stop : Span} {op : Operator} {separated : Bool} :
    takes t (.separator stop) op separated = true ↔ ¬ (op = .between ∧ (!separated) = true) := by
  simp [takes, imp_iff_not_or]

theorem applyToBetween_eq (stop : Span) :
    (do
      let (values, waiting) ← applyToBetween f stop values waiting
      return ⟨values, waiting, true⟩ : Folding σ Stacks) = (do
        let (values, waiting) ← applyWhile f (takes t (.separator stop)) values waiting
        settle values waiting (.separator stop)) := by
  induction waiting generalizing values with
  | nil => rfl
  | cons first rest ih =>
    cases first with
    | opening span height => rfl
    | operator op span separated =>
      rw [applyToBetween, applyWhile]
      by_cases hb : op = .between ∧ (!separated) = true
      · rw [if_pos hb, if_neg fun htakes => takes_separator_iff.1 htakes hb]
        rfl
      · rw [if_neg hb, if_pos (takes_separator_iff.2 hb), bind_assoc, bind_assoc]
        exact bind_congr fun values => ih

theorem applyToOpening_eq (stop : Span) :
    (do
      let (values, waiting) ← applyToOpening f stop values waiting
      return ⟨values, waiting, false⟩ : Folding σ Stacks) = (do
        let (values, waiting) ← applyWhile f (takes t (.closing stop)) values waiting
        settle values waiting (.closing stop)) := by
  induction waiting generalizing values with
  | nil => rfl
  | cons first rest ih =>
    cases first with
    | opening span height => rfl
    | operator op span separated =>
      have htakes : takes t (.closing stop) op separated = true := rfl
      rw [applyToOpening, applyWhile, if_pos htakes, bind_assoc, bind_assoc]
      exact bind_congr fun values => ih

/-- On top of the stack there is no operator for which `p` holds. -/
def Stops (p : Operator → Bool → Bool) : List Waiting → Prop
  | .operator op _ separated :: _ => p op separated = false
  | _ => True

/-- An item that begins an operand takes no operator from the stack. -/
theorem stops_of_beginsOperand (item : Item) (h : item.beginsOperand = true) :
    Stops (takes t item) waiting := by
  have hnot (op : Operator) (separated : Bool) : takes t item op separated = false := by
    cases item with
    | opening | operand | list => rfl
    | closing | separator => cases h
    | operator first =>
      have hp : first.isPrefix = true := h
      simp [takes, hp]
  unfold Stops
  split
  · exact hnot _ _
  · trivial

theorem applyWhile_of_stops (h : Stops p waiting) :
    applyWhile f p values waiting = pure (values, waiting) := by
  rcases waiting with - | ⟨_ | ⟨op, span, separated⟩, rest⟩
  · rfl
  · rfl
  · have hp : p op separated = false := h
    rw [applyWhile, hp]
    rfl

theorem applyWhile_of_beginsOperand (item : Item) (h : item.beginsOperand = true) :
    applyWhile f (takes t item) values waiting = pure (values, waiting) :=
  applyWhile_of_stops (stops_of_beginsOperand item h)

theorem lift_check_bind {β γ : Type} (x : Except SyntaxError Unit) (b : β) (g : β → Folding σ γ) :
    (liftM (x >>= fun _ => Except.ok b) >>= g : Folding σ γ) = liftM x >>= fun _ => g b := by
  cases x <;> rfl

/-- A step is a check, a run of applications and a change of the stacks. -/
theorem step_eq_phases (f : Evaluator σ) (t : OperatorTable) (state : Stacks) (item : Item) :
    step f t state item = (do
      let values ← state.arrive t item
      let (values, waiting) ← applyWhile f (takes t item) values state.waiting
      settle values waiting item) := by
  obtain ⟨values, waiting, lacks⟩ := state
  cases item with
  | opening span =>
    rw [arrive, lift_check_bind, applyWhile_of_beginsOperand (.opening span) rfl]
    cases lacks <;> rfl
  | operand x span =>
    rw [arrive, lift_check_bind, applyWhile_of_beginsOperand (.operand x span) rfl]
    rfl
  | list elements span =>
    rw [arrive, lift_check_bind, applyWhile_of_beginsOperand (.list elements span) rfl]
    rfl
  | separator span =>
    rw [arrive, lift_check_bind, ← applyToBetween_eq]
    rfl
  | closing span =>
    rw [arrive, step]
    exact bind_congr fun values => applyToOpening_eq span
  | operator op span =>
    rw [arrive, step]
    by_cases hp : op.isPrefix = true
    · rw [if_pos hp, if_pos hp]
      cases lacks with
      | false => rfl
      | true =>
        change _ =
          liftM (admitPrefix t ⟨values, waiting, true⟩ op >>= fun _ => Except.ok values) >>= _
        rw [lift_check_bind, applyWhile_of_beginsOperand (.operator op span) hp]
        rfl
    · have htakes : takes t (.operator op span) = fun first _ => t.bindsTighterOrEqual first op :=
        funext fun _ => funext fun _ => takes_operator hp
      rw [if_neg hp, if_neg hp, htakes]
      cases lacks with
      | true => rfl
      | false =>
        change (applyTighter f t op values waiting >>= _) = applyWhile f _ values waiting >>= _
        rw [applyTighter_eq]
        rfl

/-! ## Arrivals -/

variable {s s' : σ} {err : SyntaxError}

theorem stops_of_admitEnd {u : Unit} (hl : state.lacksOperand = true) (h : state.admitEnd = .ok u) :
    Stops p state.waiting := by
  unfold Stops
  split
  · rename_i hw
    rw [admitEnd, hw] at h
    simp [hl] at h
  · trivial

theorem stops_of_closeGroup {span : Span} (hl : state.lacksOperand = true)
    (h : state.closeGroup span = .ok values) : Stops p state.waiting := by
  rw [closeGroup] at h
  split at h
  · rename_i hempty
    unfold Stops
    split
    · rename_i hw
      simp [hw] at hempty
    · trivial
  · obtain ⟨u, hu, -⟩ := bind_eq_ok_iff.1 h
    exact stops_of_admitEnd hl hu

/-- What begins an operand comes where one is lacking, and everything else where none is. Only a
separator or a closing parenthesis may come where an operand is lacking, if no operator lacks it. -/
theorem of_arrive (h : state.arrive t item = .ok values) :
    state.lacksOperand = item.beginsOperand ∧ values = state.values ∨
      state.lacksOperand = true ∧ (∃ stop, item = .separator stop ∨ item = .closing stop) ∧
        ∀ p, Stops p state.waiting := by
  obtain ⟨values', waiting, lacks⟩ := state
  cases lacks with
  | false =>
    cases item with
    | opening | operand | list => cases h
    | separator span =>
      rw [arrive, admitEnd_of_complete] at h
      exact .inl ⟨rfl, (Except.ok.inj h).symm⟩
    | closing span =>
      rw [arrive, closeGroup_of_complete] at h
      exact .inl ⟨rfl, (Except.ok.inj h).symm⟩
    | operator op span =>
      rw [arrive] at h
      split at h
      · cases h
      · rename_i hp
        exact .inl ⟨(Bool.eq_false_iff.2 hp).symm, (Except.ok.inj h).symm⟩
  | true =>
    cases item with
    | opening | operand | list => exact .inl ⟨rfl, (Except.ok.inj h).symm⟩
    | separator span =>
      obtain ⟨u, hend, -⟩ := bind_eq_ok_iff.1 h
      exact .inr ⟨rfl, ⟨span, .inl rfl⟩, fun p => stops_of_admitEnd rfl hend⟩
    | closing span => exact .inr ⟨rfl, ⟨span, .inr rfl⟩, fun p => stops_of_closeGroup rfl h⟩
    | operator op span =>
      rw [arrive] at h
      split at h
      · rename_i hp
        obtain ⟨u, -, h⟩ := bind_eq_ok_iff.1 h
        obtain ⟨v, -, h⟩ := bind_eq_ok_iff.1 h
        exact .inl ⟨hp.symm, (Except.ok.inj h).symm⟩
      · cases h

/-- Where an operand is lacking, no operator is applied. -/
theorem stops_of_arrive (hl : state.lacksOperand = true) (h : state.arrive t item = .ok values) :
    Stops (takes t item) state.waiting := by
  rcases of_arrive h with ⟨hb, -⟩ | ⟨-, -, hstops⟩
  · exact stops_of_beginsOperand item (hb.symm.trans hl)
  · exact hstops _

/-- Where no operand is lacking, the values stay as they are. -/
theorem eq_of_arrive (hl : state.lacksOperand = false) (h : state.arrive t item = .ok values) :
    values = state.values := by
  rcases of_arrive h with ⟨-, hvalues⟩ | ⟨htrue, -⟩
  · exact hvalues
  · cases hl.symm.trans htrue

/-! ## Operators that are left -/

theorem stops_of_gives {r : List Stacked × List Waiting}
    (h : Gives (applyWhile f p values waiting) s r s') : Stops p r.2 := by
  induction waiting generalizing values s with
  | nil =>
    obtain ⟨rfl, -⟩ := gives_pure_iff.1 h
    trivial
  | cons first rest ih =>
    cases first with
    | opening =>
      obtain ⟨rfl, -⟩ := gives_pure_iff.1 h
      trivial
    | operator op span separated =>
      rw [applyWhile] at h
      split at h
      · obtain ⟨values', s₁, -, h⟩ := gives_bind_iff.1 h
        exact ih h
      · rename_i hp
        obtain ⟨rfl, -⟩ := gives_pure_iff.1 h
        exact Bool.eq_false_iff.2 hp

/-- A separator leaves a `BETWEEN` on top that lacks it, unless it leaves no operator there. -/
theorem between_of_stops {op : Operator} {span stop : Span} {separated : Bool}
    (h : Stops (takes t (.separator stop)) (.operator op span separated :: waiting)) :
    op = .between ∧ separated = false := by
  have hnot : takes t (.separator stop) op separated = false := h
  by_contra hb
  rw [takes_separator_iff.2 (by simpa using hb)] at hnot
  cases hnot

/-! ## Endings of a step -/

/-- An item that is read has passed all three phases. -/
theorem gives_step_iff {state' : Stacks} : Gives (step f t state item) s state' s' ↔
    ∃ values r, state.arrive t item = .ok values ∧
      Gives (applyWhile f (takes t item) values state.waiting) s r s' ∧
        settle r.1 r.2 item = .ok state' := by
  rw [step_eq_phases]
  simp only [gives_bind_iff, gives_liftExcept_iff]
  constructor
  · rintro ⟨values, _, ⟨ha, rfl⟩, r, _, hg, hs, rfl⟩
    exact ⟨values, r, ha, hg, hs⟩
  · rintro ⟨values, r, ha, hg, hs⟩
    exact ⟨values, s, ⟨ha, rfl⟩, r, s', hg, hs, rfl⟩

/-- An item that is refused is refused in one of the phases, and has passed those before it. -/
theorem fails_step_iff : Fails (step f t state item) s err s' ↔
    state.arrive t item = .error err ∧ s = s' ∨ ∃ values, state.arrive t item = .ok values ∧
      (Fails (applyWhile f (takes t item) values state.waiting) s err s' ∨
        ∃ r, Gives (applyWhile f (takes t item) values state.waiting) s r s' ∧
          settle r.1 r.2 item = .error err) := by
  rw [step_eq_phases, fails_check_iff]
  simp only [fails_bind_iff, fails_liftExcept_iff]
  refine or_congr_right (exists_congr fun values => and_congr_right fun _ => or_congr_right ?_)
  constructor
  · rintro ⟨r, _, hg, hs, rfl⟩
    exact ⟨r, hg, hs⟩
  · rintro ⟨r, hg, hs⟩
    exact ⟨r, s', hg, hs, rfl⟩

end Stacks

end WhereClause
