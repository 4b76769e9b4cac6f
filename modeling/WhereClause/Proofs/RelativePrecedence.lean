import WhereClause.Proofs.Phrase.Agreement
import WhereClause.Proofs.Strategies

/-!
# Only the order of precedence matters

Two parsers with the same lexical rules treat a clause in the same way, in every respect, if their
tables have the same operators for its words and order these in the same way. How many tiers there
are, which of them hold the operators, and what else the tables hold makes no difference.

The items are the same, and all operators among them are named by the words of the clause. This
stays so for the parts of open groups and for the operators that wait on a stack. So the tables are
only ever asked about such operators, and give the same answers.
-/

namespace WhereClause

variable {t u : OperatorTable} {tokens : List Token} {U : Operator → Prop}

/-! ## Stacks -/

/-- If it is an operator that waits, then `U` holds of it. -/
def Waiting.Among (U : Operator → Prop) : Waiting → Prop
  | .operator op _ _ => U op
  | .opening _ _ => True

namespace Stacks

variable {σ : Type} {f : Evaluator σ} {op : Operator} {values : List Stacked}
  {waiting : List Waiting} {state : Stacks} {item : Item}

/-- `U` holds of all operators that wait. -/
def Among (U : Operator → Prop) (waiting : List Waiting) : Prop :=
  ∀ x ∈ waiting, x.Among U

theorem among_nil : Among U [] := by
  simp [Among]

theorem Among.rest {x : Waiting} (h : Among U (x :: waiting)) : Among U waiting :=
  (List.forall_mem_cons.1 h).2

theorem Among.cons {x : Waiting} (hx : x.Among U) (h : Among U waiting) : Among U (x :: waiting) :=
  List.forall_mem_cons.2 ⟨hx, h⟩

theorem applyTighter_congr (h : t.AgreeOn u tokens) (ho : op ∈ t.used tokens)
    (hw : Among (· ∈ t.used tokens) waiting) (values : List Stacked) :
    applyTighter f t op values waiting = applyTighter f u op values waiting := by
  induction waiting generalizing values with
  | nil => rfl
  | cons x waiting ih =>
    cases x with
    | opening => rfl
    | operator first span separated =>
      rw [applyTighter, applyTighter, h.bindsTighterOrEqual_eq (hw _ List.mem_cons_self) ho]
      split
      · exact bind_congr fun values => ih hw.rest values
      · rfl

theorem ensures_applyWhile {p : Operator → Bool → Bool} (hw : Among U waiting)
    (values : List Stacked) : Ensures (applyWhile f p values waiting) fun r => Among U r.2 := by
  induction waiting generalizing values with
  | nil => exact ensures_pure hw
  | cons x waiting ih =>
    cases x with
    | opening => exact ensures_pure hw
    | operator op span separated =>
      rw [applyWhile]
      split
      · exact (ensures_true _).bind fun values _ => ih hw.rest values
      · exact ensures_pure hw

theorem among_settle (hw : Among U waiting) (hi : item.Among U)
    (h : settle values waiting item = .ok state) : Among U state.waiting := by
  cases item with
  | opening span =>
    cases h
    exact .cons trivial hw
  | operand | list =>
    cases h
    exact hw
  | operator op span =>
    cases h
    exact .cons hi hw
  | separator stop =>
    rcases waiting with - | ⟨_ | ⟨op, span, separated⟩, rest⟩ <;> cases h
    have hop : U op := hw _ List.mem_cons_self
    exact .cons hop hw.rest
  | closing stop =>
    rcases waiting with - | ⟨_ | _, _⟩ <;> cases h
    exact hw.rest

theorem admitPrefix_congr (h : t.AgreeOn u tokens)
    (hw : Among (· ∈ t.used tokens) state.waiting) (ho : op ∈ t.used tokens) :
    state.admitPrefix t op = state.admitPrefix u op := by
  unfold admitPrefix
  split
  · rename_i hl
    rw [hl] at hw
    rw [h.tighter _ (hw _ List.mem_cons_self) _ ho]
  · rfl

theorem step_congr (h : t.AgreeOn u tokens) (hw : Among (· ∈ t.used tokens) state.waiting)
    (hi : item.Among (· ∈ t.used tokens)) : step f t state item = step f u state item := by
  cases item with
  | opening | operand | list | separator | closing => rfl
  | operator op span =>
    rw [step, step, admitPrefix_congr h hw hi, applyTighter_congr h hi hw]

theorem ensures_step (hw : Among U state.waiting) (hi : item.Among U) :
    Ensures (step f t state item) fun state' => Among U state'.waiting := by
  rw [step_eq_phases]
  refine (ensures_true _).bind fun values _ => (ensures_applyWhile hw values).bind fun r hr => ?_
  exact (ensures_iff.2 fun _ h => among_settle hr hi h).lift

end Stacks

/-- Items are folded by the same calls of the evaluator, to the same value or the same error. -/
theorem Value.ofItems_congr {σ : Type} (f : Evaluator σ) (h : t.AgreeOn u tokens)
    {items : List Item} (hi : ∀ item ∈ items, item.Among (· ∈ t.used tokens)) :
    ofItems f t items = ofItems f u items := by
  have hsame (state : Stacks) (hs : Stacks.Among (· ∈ t.used tokens) state.waiting) (item : Item)
      (hm : item ∈ items) : Stacks.step f t state item = Stacks.step f u state item :=
    Stacks.step_congr h hs (hi item hm)
  have hamong (state : Stacks) (hs : Stacks.Among (· ∈ t.used tokens) state.waiting) (item : Item)
      (hm : item ∈ items) : Ensures (Stacks.step f t state item) fun state' =>
        Stacks.Among (· ∈ t.used tokens) state'.waiting :=
    Stacks.ensures_step hs (hi item hm)
  have hinitial : Stacks.Among (· ∈ t.used tokens) ({} : Stacks).waiting := Stacks.among_nil
  rw [ofItems, ofItems, (foldlM_congr hsame hamong hinitial).1]

/-! ## Clauses -/

namespace Parser

variable {p q : Parser} {clause : String}

/-- The two parsers read, group and evaluate the clause in the same way: the results are the same,
errors included, and so are the calls of any evaluator. -/
structure AlikeOn (p q : Parser) (clause : String) : Prop where
  parse : p.parse clause = q.parse clause
  group : p.group clause = q.group clause
  fold : ∀ {σ : Type} (f : Evaluator σ) (s : σ),
    (p.fold f clause).run.run s = (q.fold f clause).run.run s
  calls : ∀ {σ : Type} (f : Evaluator σ) (s : σ),
    (p.fold f.recorded clause).run.run (s, []) = (q.fold f.recorded clause).run.run (s, [])

theorem alikeOn_of_agreeOn (hl : p.lexicon = q.lexicon)
    (h : p.table.AgreeOn q.table (p.tokenize clause)) : p.AlikeOn q clause := by
  have htokens : p.tokenize clause = q.tokenize clause := by rw [tokenize, tokenize, hl]
  obtain ⟨heq, hamong⟩ := Item.ofTokens_congr h clause.utf8ByteSize
  have hitems : p.items clause = q.items clause := by rw [items, items, heq, htokens]
  have hfold {σ : Type} (f : Evaluator σ) : p.fold f clause = q.fold f clause := by
    rw [fold, fold, ← hitems]
    exact hamong.lift fun items hi => Value.ofItems_congr f h hi
  refine ⟨?_, by rw [group, group, hitems], fun f s => by rw [hfold], fun f s => by rw [hfold]⟩
  rw [parse, parse, ← hitems, ← htokens]
  exact hamong fun items hi => by rw [Phrase.ofItems_congr h hi]

/-- Parsers with the same lexical rules treat a clause in the same way if their tables have the same
operators for the words of its tokens, and order these operators and the prefix minus in the same
way. In particular this is so if the tables differ only in empty tiers and in operators that no
token names. -/
theorem alike_of_relative_precedence (hl : p.lexicon = q.lexicon) (clause : String) :
    (p.table.AgreeOn q.table (p.tokenize clause) → p.AlikeOn q clause) ∧
      (p.table.namedTiers (p.tokenize clause) = q.table.namedTiers (p.tokenize clause) →
        p.AlikeOn q clause) :=
  ⟨alikeOn_of_agreeOn hl, fun h => alikeOn_of_agreeOn hl (OperatorTable.agreeOn_of_namedTiers h)⟩

/-- The built-in operators, with an operator that binds tighter than all of them, one that binds
like `AND`, and an empty tier. -/
def widened : OperatorTable where
  configured := [[.custom "~" .unary], [.multiply, .divide, .modulo], [], [.add, .subtract],
    [.equal, .notEqual, .less, .greater, .lessOrEqual, .greaterOrEqual], [.comma], [.not],
    [.between, .isIn, .is, .like], [.and, .custom "XOR" .binary], [.or]]
  nodup := by decide
  negate_not_mem := by decide
  eq_between := by decide

/-- A clause with a prefix minus, a list and an `AND` that is not an operator. -/
theorem alike_of_relative_precedence_widened :
    OperatorTable.standard.AgreeOn widened
        (standard.tokenize "NOT a - -b BETWEEN 2 AND c OR d IN (1, 2)") ∧
      OperatorTable.standard.namedTiers
          (standard.tokenize "NOT a - -b BETWEEN 2 AND c OR d IN (1, 2)") =
        widened.namedTiers (standard.tokenize "NOT a - -b BETWEEN 2 AND c OR d IN (1, 2)") ∧
      standard.AlikeOn ⟨.standard, widened⟩ "NOT a - -b BETWEEN 2 AND c OR d IN (1, 2)" := by
  have hsame := @alike_of_relative_precedence standard ⟨.standard, widened⟩ rfl
    "NOT a - -b BETWEEN 2 AND c OR d IN (1, 2)"
  have htables : OperatorTable.standard.AgreeOn widened
      (standard.tokenize "NOT a - -b BETWEEN 2 AND c OR d IN (1, 2)") := by decide +kernel
  exact ⟨htables, by decide +kernel, hsame.1 htables⟩

end Parser

end WhereClause
