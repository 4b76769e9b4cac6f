import WhereClause.Proofs.Phrase.Arrangement
import WhereClause.Proofs.Strategies
import WhereClause.Proofs.Value.Applications

/-!
# Checks that never fail

Both ways of reading make checks that the items of a clause cannot fail, since tagging has paired
the parentheses and has made separators only where a `BETWEEN` waits, and since what may follow was
checked when the items arrived. At the end of a clause nothing is left over. The parts of a group
become one phrase unless a `BETWEEN` has no separator or an `IN` no list. An operator that is
applied finds its operands, and they belong to the group that is open. A separator finds the
`BETWEEN` to which it belongs.
-/

namespace WhereClause

variable {t : OperatorTable} {length : Nat} {tokens : List Token} {items : List Item}

/-! ## Reading into phrases -/

/-- Reading the items into a phrase never comes to an error that is ruled out before. -/
structure Phrase.Spared (t : OperatorTable) (items : List Item) : Prop where
  /-- The end of the clause is not refused. -/
  finish : ∀ {n : Nesting}, items.foldlM (Nesting.step t) {} = .ok n → ∃ x, n.finish t = .ok x
  /-- A group that may end is refused only for a `BETWEEN` without its separator or an `IN` without
  a list. -/
  resolve : ∀ {u rest : List Item} {start stop : Span} {n : Nesting} {before : List Part}
    {outer : List (Span × List Part)} {err : SyntaxError}, items = u ++ .closing stop :: rest →
    u.foldlM (Nesting.step t) {} = .ok n → n.outer = (start, before) :: outer →
    n.admitEnd = .ok () → Part.resolve t n.inner.reverse (start.merge stop) = .error err →
    err.isLate = true

theorem Phrase.spared_of_ofTokens (h : Item.ofTokens t length tokens = .ok items) :
    Phrase.Spared t items where
  finish hn := by
    obtain ⟨body, rfl, hb, -⟩ := Item.balanced_of_ofTokens h
    obtain ⟨x, -, -, rfl⟩ := Nesting.derives_of_group (Nesting.spells_of_foldlM hb) hn
    exact ⟨x, Part.resolve_phrase x {}⟩
  resolve hi hn houter hend hr := by
    have hregular := (Item.continues_of_ofTokens h hi).regular
    have hempty : Nesting.Covers t [] {} := .outermost .nil
    obtain ⟨hcovers, harranged⟩ :=
      Nesting.arranged_foldlM hempty hregular Nesting.arranged_empty hn
    exact Nesting.isLate_of_group hcovers hregular harranged houter hend hr

/-! ## Folding into values -/

/-- Folding the items into a value never comes to an error that is ruled out before. -/
structure Value.Spared {σ : Type} (f : Evaluator σ) (t : OperatorTable) (items : List Item) :
    Prop where
  /-- The end of the clause is not refused. -/
  finish : ∀ {s s' : σ} {state : Stacks}, Gives (items.foldlM (Stacks.step f t) {}) s state s' →
    ∃ v, state.finish = .ok v
  /-- An operator that is applied finds its operands in the innermost open group. -/
  supplied : ∀ {u rest : List Item} {item : Item} {s s' : σ} {state : Stacks},
    items = u ++ item :: rest → Gives (u.foldlM (Stacks.step f t) {}) s state s' →
    ∀ a ∈ state.applicationsAt f t item s', a.Supplied
  /-- A separator finds a `BETWEEN` that lacks one in the innermost open group. -/
  separated : ∀ {u rest : List Item} {stop : Span} {s s' : σ} {state : Stacks},
    items = u ++ .separator stop :: rest → Gives (u.foldlM (Stacks.step f t) {}) s state s' →
    ∃ span, .operator .between span false ∈ state.waiting.takeWhile Waiting.isOperator
  /-- If the item is read, the operators that were applied are those that have left the stack. -/
  recorded : ∀ {u rest : List Item} {item : Item} {s s' s'' : σ} {state state' : Stacks},
    items = u ++ item :: rest → Gives (u.foldlM (Stacks.step f t) {}) s state s' →
    Gives (Stacks.step f t state item) s' state' s'' → ∃ values waiting,
      state.waiting =
          (state.applicationsAt f t item s').map Stacks.Application.entry ++ waiting ∧
        Stacks.settle values waiting item = .ok state'
  /-- An item is refused on its arrival, or for a `BETWEEN` or an `IN` that is applied. -/
  refused : ∀ {u rest : List Item} {item : Item} {s s' s'' : σ} {state : Stacks}
    {err : SyntaxError}, items = u ++ item :: rest →
    Gives (u.foldlM (Stacks.step f t) {}) s state s' →
    Fails (Stacks.step f t state item) s' err s'' →
    state.arrive t item = .error err ∨ ∃ a ∈ state.applicationsAt f t item s',
      err.isLate = true ∧ ∃ s₁, Fails (a.run f) s₁ err s''

theorem Value.spared_of_ofTokens {σ : Type} (f : Evaluator σ)
    (h : Item.ofTokens t length tokens = .ok items) : Value.Spared f t items := by
  have hholds {u : List Item} {s s' : σ} {state : Stacks} (hu : Item.Regular t u)
      (hg : Gives (u.foldlM (Stacks.step f t) {}) s state s') :
      Stacks.Holds state.lacksOperand u state.values state.waiting := by
    have hrun : Halts (u.foldlM (Stacks.step f t) {}) _ _ := Stacks.halts_foldlM .nil hu
    exact hrun.gives hg
  constructor
  case finish =>
    intro s s' state hg
    obtain ⟨body, rfl, hb, hk⟩ := Item.balanced_of_ofTokens h
    obtain ⟨-, x, e, rfl, -⟩ := Stacks.read_group
      (fun hr => Stacks.read_foldlM hb hk (.lacking .start) hr) hg rfl rfl
    exact ⟨x.value, rfl⟩
  case supplied =>
    intro u rest item s s' state hi hg a ha
    have hregular := (Item.continues_of_ofTokens h hi).regular
    exact Stacks.supplied_of_mem_applicationsAt (hholds hregular hg) hregular ha
  case separated =>
    intro u rest stop s s' state hi hg
    have hnext := Item.continues_of_ofTokens h hi
    exact (hholds hnext.regular hg).exists_between (hnext.separator stop rfl)
  case recorded => exact fun _ _ hs => Stacks.exists_settle_of_gives hs
  case refused =>
    intro u rest item s s' s'' state err hi hg hf
    have hnext := Item.continues_of_ofTokens h hi
    exact Stacks.refused_of_fails (hholds hnext.regular hg) hnext hf

/-! ## Clauses -/

/-- The items of a clause are read, in both ways, without the errors that are ruled out before. -/
theorem Item.reading_spared (h : Item.ofTokens t length tokens = .ok items) :
    Phrase.Spared t items ∧ ∀ {σ : Type} (f : Evaluator σ), Value.Spared f t items :=
  ⟨Phrase.spared_of_ofTokens h, fun f => Value.spared_of_ofTokens f h⟩

/-- In `x * 2 BETWEEN (a + 1) AND NOT b` the `*` is applied when the `BETWEEN` comes, and the `+`
when its parenthesis closes; then `x * 2` is on the stack as well, but not for the `+`. -/
theorem Item.reading_spared_between :
    ∃ items : List Item, items =
        [.opening ⟨0, 0⟩, .operand (.identifier "x") ⟨0, 1⟩, .operator .multiply ⟨2, 3⟩,
          .operand (.literal (.integer 2)) ⟨4, 5⟩, .operator .between ⟨6, 13⟩, .opening ⟨14, 15⟩,
          .operand (.identifier "a") ⟨15, 16⟩, .operator .add ⟨17, 18⟩,
          .operand (.literal (.integer 1)) ⟨19, 20⟩, .closing ⟨20, 21⟩, .separator ⟨22, 25⟩,
          .operator .not ⟨26, 29⟩, .operand (.identifier "b") ⟨30, 31⟩, .closing ⟨31, 31⟩] ∧
      Phrase.Spared .standard items ∧ Value.Spared Parser.numbered .standard items ∧
      ∃ state, Gives ((items.take 9).foldlM (Stacks.step Parser.numbered .standard) {}) 0 state 1 ∧
        (state.applicationsAt Parser.numbered .standard (.closing ⟨20, 21⟩) 1).map
          (fun a => (a.operator, Stacks.base a.waiting, a.values.length)) = [(.add, 1, 3)] := by
  have h : Item.ofTokens .standard 31
      [⟨.identifier "x", ⟨0, 1⟩⟩, ⟨.operator "*", ⟨2, 3⟩⟩, ⟨.literal (.integer 2) none, ⟨4, 5⟩⟩,
        ⟨.identifier "BETWEEN", ⟨6, 13⟩⟩, ⟨.punctuation '(', ⟨14, 15⟩⟩, ⟨.identifier "a", ⟨15, 16⟩⟩,
        ⟨.operator "+", ⟨17, 18⟩⟩, ⟨.literal (.integer 1) none, ⟨19, 20⟩⟩,
        ⟨.punctuation ')', ⟨20, 21⟩⟩, ⟨.identifier "AND", ⟨22, 25⟩⟩, ⟨.identifier "NOT", ⟨26, 29⟩⟩,
        ⟨.identifier "b", ⟨30, 31⟩⟩] = .ok _ := rfl
  obtain ⟨hphrase, hvalue⟩ := Item.reading_spared h
  exact ⟨_, rfl, hphrase, hvalue Parser.numbered, _, rfl, rfl⟩

end WhereClause
