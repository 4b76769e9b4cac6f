import WhereClause.Proofs.Value.Soundness

/-!
# Errors of applied operators

A folding refuses a clause for two reasons: an item cannot stand where it does, or an operator that
is applied does not fit its operands. The operands that an applied operator needs are always there,
so only two things are found out as late as that: a `BETWEEN` without its `AND`, and an `IN` without
a list.
-/

namespace WhereClause

/-- Whether the error is found when an operator is applied, and not when an item arrives. -/
def SyntaxError.isLate : SyntaxError → Bool
  | .malformedBetween _ => true
  | .invalidInTarget _ => true
  | _ => false

namespace Stacks

variable {t : OperatorTable} {σ : Type} {f : Evaluator σ} {values₀ values : List Stacked}
  {start : Span} {waiting₀ waiting : List Waiting} {items : List Item} {n k : Nat} {s s' : σ}
  {err : SyntaxError}

/-! ## One application -/

theorem isLate_of_fails_combine {op : Operator} {span : Span} {operands : List Stacked}
    (h : Fails (combine f op span operands) s err s') : err.isLate = true := by
  unfold combine at h
  dsimp only at h
  split at h
  · obtain ⟨rfl, -⟩ := fails_throw_iff.1 h
    rfl
  · split at h
    · exact absurd h not_fails_pure
    · rcases fails_bind_iff.1 h with h | ⟨v, s₁, -, h⟩
      · exact absurd h not_fails_liftState
      · exact absurd h not_fails_pure

/-- An operator that is applied has the operands that it needs. -/
theorem isLate_of_fails_apply {op : Operator} {span : Span} {separated : Bool}
    (hlen : op = .between ∧ separated = false ∨ op.arity.count ≤ values.length)
    (h : Fails (apply f op span separated values) s err s') : err.isLate = true := by
  unfold apply at h
  split at h
  · obtain ⟨rfl, -⟩ := fails_throw_iff.1 h
    rfl
  · rename_i hb
    have hle : op.arity.count ≤ values.length := by
      rcases hlen with ⟨rfl, rfl⟩ | hle
      · exact absurd ⟨rfl, rfl⟩ hb
      · exact hle
    rw [if_neg (Nat.not_lt.2 hle)] at h
    rcases fails_bind_iff.1 h with h | ⟨y, s₁, -, h⟩
    · exact isLate_of_fails_combine h
    · exact absurd h not_fails_pure

theorem Context.waiting_ne_nil (h : Context t values₀ start waiting₀ items values waiting) :
    waiting ≠ [] := by
  cases h <;> simp

namespace Complete

theorem arity_le_length {op : Operator} {span : Span} {separated : Bool}
    (h : Complete t values₀ start waiting₀ n items values
      (.operator op span separated :: waiting)) :
    op = .between ∧ separated = false ∨ op.arity.count ≤ values.length := by
  obtain ⟨hctx, -⟩ := h
  cases hctx with
  | prefixed _ hp =>
    have ha : op.arity = .unary := by simpa [Operator.isPrefix] using hp
    exact .inr (by simp [ha, Arity.count])
  | infixed hm hp =>
    by_cases hb : op = .between
    · exact .inl ⟨hb, rfl⟩
    · exact .inr (by simp [OperatorTable.arity_eq_binary hm hp hb, Arity.count])
  | separated => exact .inr (by simp [Operator.arity, Arity.count])

/-! ## The phases of a step -/

theorem isLate_of_fails {p : Operator → Bool → Bool}
    (h : Complete t values₀ start waiting₀ n items values waiting)
    (hf : Fails (Stacks.applyWhile f p values waiting) s err s') : err.isLate = true := by
  induction waiting generalizing values n s with
  | nil => exact absurd hf not_fails_pure
  | cons first rest ih =>
    cases first with
    | opening span height => exact absurd hf not_fails_pure
    | operator op span separated =>
      obtain ⟨j, hj⟩ := h.exists_tier
      rw [Stacks.applyWhile] at hf
      split at hf
      · rcases fails_bind_iff.1 hf with hf | ⟨values₁, s₁, h₁, hf⟩
        · exact isLate_of_fails_apply h.arity_le_length hf
        · exact ih (h.apply hj h₁) hf
      · exact absurd hf not_fails_pure

theorem waiting_ne_nil (h : Complete t values₀ start waiting₀ n items values waiting) :
    waiting ≠ [] := by
  obtain ⟨hctx, -⟩ := h
  exact hctx.waiting_ne_nil

end Complete

variable {state : Stacks} {item : Item}

theorem admitEnd_of_closeGroup {span : Span} (h : state.closeGroup span = .error err) :
    state.admitEnd = .error err := by
  have hbind (h : (do state.admitEnd; .ok state.values : Except _ (List Stacked)) = .error err) :
      state.admitEnd = .error err := by
    rcases bind_eq_error_iff.1 h with h | ⟨_, _, h⟩
    · exact h
    · cases h
  obtain ⟨values, waiting, lacks⟩ := state
  rcases waiting with - | ⟨⟨_, height⟩ | _, _⟩
  · exact hbind h
  · simp only [closeGroup] at h
    split at h
    · cases h
    · exact hbind h
  · exact hbind h

/-- What is found on the arrival of an item is not late. -/
theorem not_isLate_of_arrive (h : state.arrive t item = .error err) : err.isLate = false := by
  have hoperand {span : Span} (h : state.admitOperand span = .error err) :
      err.isLate = false := by
    unfold admitOperand at h
    split at h <;> cases h
    rfl
  have hend (h : state.admitEnd = .error err) : err.isLate = false := by
    unfold admitEnd at h
    split at h
    · split at h <;> cases h
      rfl
    · cases h
  have hprefix {op : Operator} (h : state.admitPrefix t op = .error err) : err.isLate = false := by
    unfold admitPrefix at h
    split at h
    · split at h <;> cases h
      rfl
    · cases h
  cases item with
  | opening span | operand x span | list elements span =>
    rcases bind_eq_error_iff.1 h with h | ⟨_, -, h⟩
    · exact hoperand h
    · cases h
  | separator span =>
    rcases bind_eq_error_iff.1 h with h | ⟨_, -, h⟩
    · exact hend h
    · cases h
  | closing span => exact hend (admitEnd_of_closeGroup h)
  | operator op span =>
    rw [arrive] at h
    split at h
    · rcases bind_eq_error_iff.1 h with h | ⟨_, -, h⟩
      · exact hoperand h
      · rcases bind_eq_error_iff.1 h with h | ⟨_, -, h⟩
        · exact hprefix h
        · cases h
    · split at h <;> cases h
      rfl

/-- An item that has come finds its place, unless it is a separator without its `BETWEEN`. -/
theorem isLate_of_settle (hw : waiting ≠ []) (hstops : Stops (takes t item) waiting)
    (h : settle values waiting item = .error err) : err.isLate = true := by
  cases item with
  | opening | operand | list | operator => cases h
  | separator stop =>
    match waiting with
    | [] | .opening _ _ :: _ =>
      cases h
      rfl
    | .operator _ _ _ :: _ => cases h
  | closing stop =>
    match waiting with
    | [] => exact absurd rfl hw
    | .opening _ _ :: _ => cases h
    | .operator _ _ _ :: _ => cases hstops

/-- If an item that may come is refused nevertheless, then late. -/
theorem Read.isLate_of_fails (h : Read t values₀ start waiting₀ items state)
    (harrive : state.arrive t item = .ok values)
    (hf : Fails (applyWhile f (takes t item) values state.waiting) s err s' ∨
      ∃ r, Gives (applyWhile f (takes t item) values state.waiting) s r s' ∧
        settle r.1 r.2 item = .error err) : err.isLate = true := by
  cases h with
  | lacking hctx =>
    have hstops := stops_of_arrive rfl harrive
    rw [applyWhile_of_stops hstops] at hf
    rcases hf with hf | ⟨r, hg, hsettle⟩
    · exact absurd hf not_fails_pure
    · obtain ⟨rfl, -⟩ := gives_pure_iff.1 hg
      exact isLate_of_settle hctx.waiting_ne_nil hstops hsettle
  | complete hc =>
    obtain rfl := eq_of_arrive rfl harrive
    rcases hf with hf | ⟨r, hg, hsettle⟩
    · exact hc.isLate_of_fails hf
    · exact isLate_of_settle (hc.applyWhile_all hg).waiting_ne_nil (stops_of_gives hg) hsettle

end Stacks

end WhereClause
