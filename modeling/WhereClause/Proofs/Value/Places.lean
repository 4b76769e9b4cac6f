import WhereClause.Proofs.Item.Extent
import WhereClause.Proofs.Value.Refusal

/-!
# Places of errors in folding

When a clause is folded, the errors of applied operators are about items that have been read. What
has been read lies on the two stacks, in turn: a value stands for the items of an operand, what
waits for one item, and a `BETWEEN` that has its `AND` for one more. An operator is applied to the
values that lie around it, so the target of an `IN` stands directly after the `IN`.

A separator always finds its `BETWEEN`: without one, the values of the group so far would make one
operand, which has as many separators as `BETWEEN`s.
-/

namespace WhereClause

variable {t : OperatorTable} {σ : Type} {f : Evaluator σ}

/-! ## What lies on the stacks -/

theorem Stacked.eq_of_invalidTarget? {op : Operator} {x y : Stacked} {place : Span}
    (h : invalidTarget? op [x, y] = some place) : op = .isIn ∧ place = y.span := by
  unfold invalidTarget? at h
  split at h
  · rename_i heq
    cases heq
    split at h <;> cases h
    exact ⟨rfl, rfl⟩
  · cases h

namespace Stacks

/-- The items that have been read are on the stacks, in turn. After them an operand is lacking, or
not. -/
inductive Holds : Bool → List Item → List Stacked → List Waiting → Prop
  | nil : Holds true [] [] []
  | opening {u : List Item} {values : List Stacked} {waiting : List Waiting} {span : Span} :
    Holds true u values waiting →
      Holds true (u ++ [.opening span]) values (.opening span values.length :: waiting)
  | operator {u : List Item} {values : List Stacked} {waiting : List Waiting} {op : Operator}
    {span : Span} : Holds op.isPrefix u values waiting →
      Holds true (u ++ [.operator op span]) values (.operator op span false :: waiting)
  | separator {u : List Item} {values : List Stacked} {waiting : List Waiting}
    {span stop : Span} : Holds false u values (.operator .between span false :: waiting) →
      Holds true (u ++ [.separator stop]) values (.operator .between span true :: waiting)
  | value {u w : List Item} {x : Stacked} {values : List Stacked} {waiting : List Waiting} :
    Holds true u values waiting → Item.Extent w x.span → Holds false (u ++ w) (x :: values) waiting

variable {lacks separated : Bool} {u w items ws : List Item} {item : Item}
  {values : List Stacked} {waiting : List Waiting} {op : Operator} {span stop : Span}

namespace Holds

theorem exists_value (h : Holds false items values waiting) :
    ∃ u w x rest, items = u ++ w ∧ values = x :: rest ∧ Holds true u rest waiting ∧
      Item.Extent w x.span := by
  cases h with
  | value hu hx => exact ⟨_, _, _, _, rfl, rfl, hu, hx⟩

theorem exists_operator (h : Holds true items values (.operator op span false :: waiting)) :
    ∃ u, items = u ++ [.operator op span] ∧ Holds op.isPrefix u values waiting := by
  cases h with
  | operator hu => exact ⟨_, rfl, hu⟩

theorem exists_separator (h : Holds true items values (.operator op span true :: waiting)) :
    op = .between ∧ ∃ u stop, items = u ++ [.separator stop] ∧
      Holds false u values (.operator .between span false :: waiting) := by
  cases h with
  | separator hu => exact ⟨rfl, _, _, rfl, hu⟩

theorem mem_of_operator (h : Holds lacks items values waiting)
    (hm : .operator op span separated ∈ waiting) : .operator op span ∈ items := by
  induction h generalizing separated with
  | nil => cases hm
  | opening _ ih => exact List.mem_append_left _ (ih (by simpa using hm))
  | operator _ ih =>
    rcases List.mem_cons.1 hm with heq | hm
    · cases heq
      simp
    · exact List.mem_append_left _ (ih hm)
  | separator _ ih =>
    rcases List.mem_cons.1 hm with heq | hm
    · cases heq
      exact List.mem_append_left _ (ih List.mem_cons_self)
    · exact List.mem_append_left _ (ih (List.mem_cons_of_mem _ hm))
  | value _ _ ih => exact List.mem_append_left _ (ih hm)

end Holds

/-! ## One application -/

/-- There are enough operands for the operator, and where they stand. -/
structure Framed (items : List Item) (op : Operator) (span : Span) (values : List Stacked)
    (waiting : List Waiting) : Prop where
  enough : op.arity.count ≤ values.length
  word : ∃ u w, items = u ++ w ∧ Holds true u (values.drop op.arity.count) waiting ∧
    Item.Extent w
      ((values.take op.arity.count).reverse.foldl (fun span x => span.merge x.span) span)
  target : ∀ place, Stacked.invalidTarget? op (values.take op.arity.count).reverse = some place →
    (SyntaxError.invalidInTarget place).ArisesIn items

theorem Holds.framed_prefix (hp : op.isPrefix = true)
    (h : Holds false items values (.operator op span false :: waiting)) :
    Framed items op span values waiting := by
  obtain ⟨_, w, x, rest, rfl, rfl, h₁, hx⟩ := h.exists_value
  obtain ⟨u, rfl, h₂⟩ := h₁.exists_operator
  have ha : op.arity = .unary := by simpa [Operator.isPrefix] using hp
  rw [hp] at h₂
  constructor
  · simp [ha, Arity.count]
  · rw [ha]
    exact ⟨u, .operator op span :: w, by simp, h₂, hx.unary hp⟩
  · intro place ht
    rw [ha] at ht
    unfold Stacked.invalidTarget? at ht
    split at ht <;> simp_all [Arity.count]

theorem Holds.framed_binary (ha : op.arity = .binary)
    (h : Holds false items values (.operator op span false :: waiting)) :
    Framed items op span values waiting := by
  have hp : op.isPrefix = false := by simp [Operator.isPrefix, ha]
  have hb : op ≠ .between := by
    rintro rfl
    cases ha
  obtain ⟨_, w, x, rest, rfl, rfl, h₁, hx⟩ := h.exists_value
  obtain ⟨u, rfl, h₂⟩ := h₁.exists_operator
  rw [hp] at h₂
  obtain ⟨u, v, y, rest, rfl, rfl, h₃, hy⟩ := h₂.exists_value
  constructor
  · simp [ha, Arity.count]
  · rw [ha]
    exact ⟨u, v ++ .operator op span :: w, by simp, h₃, hy.binary hb hx (.inr rfl)⟩
  · intro place ht
    rw [ha] at ht
    obtain ⟨rfl, rfl⟩ := Stacked.eq_of_invalidTarget? ht
    have hsplit : u ++ v ++ [.operator .isIn span] ++ w =
        (u ++ v) ++ .operator .isIn span :: w ++ [] := by simp
    exact .invalidInTarget hsplit hx

theorem Holds.framed_between
    (h : Holds false items values (.operator .between span true :: waiting)) :
    Framed items .between span values waiting := by
  -- from the top: the upper bound, the separator, the lower bound, the `BETWEEN` and the value
  obtain ⟨_, w, x, rest, rfl, rfl, h₁, hx⟩ := h.exists_value
  obtain ⟨-, _, stop, rfl, h₂⟩ := h₁.exists_separator
  obtain ⟨_, v, y, rest, rfl, rfl, h₃, hy⟩ := h₂.exists_value
  obtain ⟨_, rfl, h₄⟩ := h₃.exists_operator
  obtain ⟨u, r, z, rest, rfl, rfl, h₅, hz⟩ := h₄.exists_value
  refine ⟨by simp [Operator.arity, Arity.count],
    ⟨u, r ++ .operator .between span :: v ++ .separator stop :: w, ?_, h₅, hz.between hy hx⟩,
    nofun⟩
  simp

theorem Holds.framed (h : Holds false items values (.operator op span separated :: waiting))
    (hi : Item.Regular t items) (hs : ¬ (op = .between ∧ (!separated) = true)) :
    Framed items op span values waiting := by
  cases separated with
  | true =>
    obtain ⟨u, w, x, rest, -, -, h₁, -⟩ := h.exists_value
    obtain ⟨rfl, -⟩ := h₁.exists_separator
    exact h.framed_between
  | false =>
    have hb : op ≠ .between := fun hb => hs ⟨hb, rfl⟩
    by_cases hp : op.isPrefix = true
    · exact h.framed_prefix hp
    · have hknown : op ∈ t.tiers.flatten := hi.known _ (h.mem_of_operator List.mem_cons_self)
      obtain ⟨k, hm⟩ := OperatorTable.mem_tiers_iff_exists_tier.1 hknown
      exact h.framed_binary (OperatorTable.arity_eq_binary hm hp hb)

/-- Of an error that is found on the arrival of an item nothing is said here. -/
theorem halts_throw_early {α : Type} {Q : α → Prop} {err : SyntaxError} (h : err.isLate = false) :
    Halts (throw err : Folding σ α) Q (fun err => err.isLate = true → err.ArisesIn items) :=
  halts_throw fun hl => absurd (h.symm.trans hl) Bool.false_ne_true

theorem halts_combine {operands : List Stacked} :
    Halts (combine f op span operands)
      (fun z => z.span = operands.foldl (fun span x => span.merge x.span) span)
      (fun err => ∃ place, Stacked.invalidTarget? op operands = some place ∧
        err = .invalidInTarget place) := by
  unfold combine
  dsimp only
  split
  · rename_i place ht
    exact halts_throw ⟨place, ht, rfl⟩
  · split
    · exact halts_pure rfl
    · exact (halts_evaluation _).bind fun _ _ => halts_pure rfl

/-- An operator that is applied makes its operands one operand, or it is refused for items that have
been read. -/
theorem halts_apply (h : Holds false items values (.operator op span separated :: waiting))
    (hi : Item.Regular t items) :
    Halts (apply f op span separated values) (Holds false items · waiting)
      (fun err => err.isLate = true → err.ArisesIn items) := by
  have hmem : .operator op span ∈ items := h.mem_of_operator List.mem_cons_self
  unfold apply
  split
  · rename_i hb
    refine halts_throw fun _ => .malformedBetween ?_
    rwa [hb.1] at hmem
  · rename_i hs
    split
    · exact halts_throw_early rfl
    · have hframed := h.framed hi hs
      have hcombine : Halts (combine f op span (values.take op.arity.count).reverse) _
          (fun err => err.isLate = true → err.ArisesIn items) :=
        halts_combine.imp_error fun err he _ => by
          obtain ⟨place, ht, rfl⟩ := he
          exact hframed.target place ht
      refine hcombine.bind fun z hz => halts_pure ?_
      obtain ⟨u, w, rfl, hu, hw⟩ := hframed.word
      exact .value hu (hz ▸ hw)

/-! ## Runs of applications -/

theorem halts_applyWhile {p : Operator → Bool → Bool} (h : Holds false items values waiting)
    (hi : Item.Regular t items) :
    Halts (applyWhile f p values waiting) (fun r => Holds false items r.1 r.2)
      (fun err => err.isLate = true → err.ArisesIn items) := by
  induction waiting generalizing values with
  | nil => exact halts_pure h
  | cons first rest ih =>
    cases first with
    | opening span height => exact halts_pure h
    | operator op span separated =>
      rw [applyWhile]
      split
      · exact (halts_apply h hi).bind fun values' h' => ih h'
      · exact halts_pure h

/-! ## Items that find their place -/

/-- Where a separator comes, an operator waits. -/
theorem Holds.exists_waiting (h : Holds lacks items values waiting)
    (hi : Item.Regular t (items ++ [.separator stop])) :
    ∃ op span separated rest, waiting = .operator op span separated :: rest := by
  cases h with
  | nil => exact (hi.not_separator_of_balanced .nil).elim
  | opening => exact (hi.not_separator .nil rfl).elim
  | operator | separator => exact ⟨_, _, _, _, rfl⟩
  | value hu hx =>
    cases hu with
    | nil => exact (hi.not_separator_of_balanced hx.balanced).elim
    | opening =>
      rw [List.append_assoc _ [_] _] at hi
      exact (hi.not_separator hx.balanced hx.even).elim
    | operator | separator => exact ⟨_, _, _, _, rfl⟩

theorem Holds.balanced (h : Holds lacks items values []) : Item.Balanced items := by
  cases h with
  | nil => exact .nil
  | value hu hx =>
    cases hu
    exact hx.balanced

/-- When the operators have been applied, the item finds its place. -/
theorem Holds.exists_settle (h : Holds item.beginsOperand items values waiting)
    (hi : Item.Continues t items item) (hstops : Stops (takes t item) waiting) :
    ∃ state, settle values waiting item = .ok state ∧
      Holds state.lacksOperand (items ++ [item]) state.values state.waiting := by
  cases item with
  | opening span => exact ⟨_, rfl, .opening h⟩
  | operand x span => exact ⟨_, rfl, .value h (.leaf rfl rfl rfl)⟩
  | list elements span => exact ⟨_, rfl, .value h (.leaf rfl rfl rfl)⟩
  | operator op span => exact ⟨_, rfl, .operator h⟩
  | separator stop =>
    obtain ⟨op, span, separated, rest, rfl⟩ := h.exists_waiting (hi.separator stop rfl)
    obtain ⟨rfl, rfl⟩ := between_of_stops hstops
    exact ⟨_, rfl, .separator h⟩
  | closing stop =>
    match waiting with
    | [] => exact absurd (hi.regular.eq_nil_of_balanced h.balanced) (hi.closing stop rfl)
    | .operator _ _ _ :: _ => cases hstops
    | .opening start height :: rest =>
      obtain ⟨_, w, x, values, rfl, rfl, h₁, hx⟩ := h.exists_value
      cases h₁ with
      | @opening u _ _ _ h₂ =>
        have hsplit : u ++ [.opening start] ++ w ++ [.closing stop] =
            u ++ (.opening start :: w ++ [.closing stop]) := by simp
        rw [hsplit]
        exact ⟨_, rfl, .value h₂ hx.group⟩

/-- Where an operand is lacking, but to no operator, nothing comes but the end of an empty list. -/
theorem Holds.exists_settle_empty (h : Holds true items values₀ waiting)
    (hi : Item.Continues t items item)
    (hitem : ∃ stop, item = .separator stop ∨ item = .closing stop)
    (hstops : ∀ p, Stops p waiting) (ha : arrive t ⟨values₀, waiting, true⟩ item = .ok values) :
    ∃ state, settle values waiting item = .ok state ∧
      Holds state.lacksOperand (items ++ [item]) state.values state.waiting := by
  obtain ⟨stop, rfl | rfl⟩ := hitem
  · obtain ⟨op, span, separated, rest, rfl⟩ := h.exists_waiting (hi.separator stop rfl)
    cases hstops fun _ _ => true
  · cases h with
    | nil => exact absurd rfl (hi.closing stop rfl)
    | operator | separator => cases hstops fun _ _ => true
    | opening h =>
      -- the list stands at its closing parenthesis
      obtain rfl : ⟨.array [], true, stop⟩ :: values₀ = values := by
        simpa [arrive, closeGroup] using ha
      refine ⟨_, rfl, ?_⟩
      rw [List.append_assoc]
      exact .value h (.parenthesized .nil (Item.within_span (.closing stop) (by simp)))

/-! ## Reading items -/

variable {state : Stacks} {s s' : σ} {r : List Stacked × List Waiting}

/-- An item that may come finds its place when the operators that it takes have been applied. -/
theorem exists_holds_of_gives (h : Holds state.lacksOperand items state.values state.waiting)
    (hi : Item.Continues t items item) (ha : state.arrive t item = .ok values)
    (hg : Gives (applyWhile f (takes t item) values state.waiting) s r s') :
    ∃ state', settle r.1 r.2 item = .ok state' ∧
      Holds state'.lacksOperand (items ++ [item]) state'.values state'.waiting := by
  have hstops := stops_of_gives hg
  obtain ⟨values₀, waiting, lacks⟩ := state
  rcases of_arrive ha with ⟨rfl, rfl⟩ | ⟨rfl, hitem, hnone⟩
  · refine Holds.exists_settle ?_ hi hstops
    cases hb : item.beginsOperand with
    | false =>
      rw [hb] at h
      exact (halts_applyWhile h hi.regular).gives hg
    | true =>
      rw [applyWhile_of_beginsOperand item hb] at hg
      obtain ⟨rfl, -⟩ := gives_pure_iff.1 hg
      rwa [hb] at h
  · rw [applyWhile_of_stops (hnone _)] at hg
    obtain ⟨rfl, -⟩ := gives_pure_iff.1 hg
    exact h.exists_settle_empty hi hitem hnone ha

theorem halts_step (h : Holds state.lacksOperand items state.values state.waiting)
    (hi : Item.Continues t items item) :
    Halts (step f t state item)
      (fun state' => Holds state'.lacksOperand (items ++ [item]) state'.values state'.waiting)
      (fun err => err.isLate = true → err.ArisesIn items) where
  gives hg := by
    obtain ⟨values, r, ha, hg, hsettle⟩ := gives_step_iff.1 hg
    obtain ⟨state', hok, h'⟩ := exists_holds_of_gives h hi ha hg
    cases hok.symm.trans hsettle
    exact h'
  fails hf := by
    intro hl
    rcases fails_step_iff.1 hf with ⟨ha, -⟩ | ⟨values, ha, hf | ⟨r, hg, hsettle⟩⟩
    · rw [not_isLate_of_arrive ha] at hl
      cases hl
    · cases hlacks : state.lacksOperand with
      | true =>
        rw [applyWhile_of_stops (stops_of_arrive hlacks ha)] at hf
        exact absurd hf not_fails_pure
      | false =>
        rw [hlacks, ← eq_of_arrive hlacks ha] at h
        exact (halts_applyWhile h hi.regular).fails hf hl
    · obtain ⟨state', hok, -⟩ := exists_holds_of_gives h hi ha hg
      cases hok.symm.trans hsettle

/-! ## All items -/

theorem halts_foldlM (h : Holds state.lacksOperand items state.values state.waiting)
    (hi : Item.Regular t (items ++ ws)) :
    Halts (ws.foldlM (step f t) state)
      (fun state' => Holds state'.lacksOperand (items ++ ws) state'.values state'.waiting)
      (fun err => err.isLate = true → err.ArisesIn (items ++ ws)) := by
  induction ws generalizing items state with
  | nil =>
    rw [List.append_nil]
    exact halts_pure h
  | cons item rest ih =>
    rw [List.append_cons] at hi ⊢
    have hpre : items <+: items ++ [item] ++ rest :=
      (List.prefix_append items [item]).trans (List.prefix_append _ rest)
    have hnext := (hi.of_prefix (List.prefix_append _ _)).continues
    have hstep := (halts_step (f := f) h hnext).imp_error
      fun _ he hl => (he hl).mono hpre.isInfix
    rw [List.foldlM_cons]
    exact hstep.bind fun state' h' => ih h' hi

theorem not_isLate_of_finish {err : SyntaxError} (h : state.finish = .error err) :
    err.isLate = false := by
  unfold finish at h
  split at h <;> cases h <;> rfl

end Stacks

/-- If a clause is refused for an operator that does not fit its operands, then for some of its
items. -/
theorem Value.arisesIn_of_ofItems {length : Nat} {tokens : List Token} {ws : List Item}
    {err : SyntaxError} {s s' : σ}
    (hi : Item.ofTokens t length tokens = .ok (ws ++ [.closing (.point length)]))
    (h : Fails (Value.ofItems f t (ws ++ [.closing (.point length)])) s err s')
    (hl : err.isLate = true) : err.ArisesIn ws := by
  have hlast := Item.continues_of_ofTokens hi rfl
  have hrun : Halts (ws.foldlM (Stacks.step f t) {}) _ _ := Stacks.halts_foldlM .nil hlast.regular
  rcases fails_bind_iff.1 h with h | ⟨state, s₁, -, h⟩
  · rcases fails_foldlM_append_iff.1 h with h | ⟨state, s₁, hg, h⟩
    · exact hrun.fails h hl
    · rcases fails_foldlM_cons_iff.1 h with h | ⟨_, _, -, h⟩
      · exact (Stacks.halts_step (hrun.gives hg) hlast).fails h hl
      · exact absurd h not_fails_pure
  · obtain ⟨hfinish, -⟩ := fails_liftExcept_iff.1 h
    rw [Stacks.not_isLate_of_finish hfinish] at hl
    cases hl

end WhereClause
