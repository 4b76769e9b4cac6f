import WhereClause.Proofs.Grammar
import WhereClause.Proofs.Value.Phases

/-!
# Folding what the grammar derives

The items that the grammar derives are folded without an error, and the calls of the evaluator are
those that evaluate the tree. While items of a category are read, operators pile up above those that
waited before. All of them bind tighter than what may follow the category, so they are applied in
turn before anything below is touched; `reduce` applies them, and the tree has been evaluated then.
-/

namespace WhereClause

open Grammar

variable {t : OperatorTable} {σ : Type} {f : Evaluator σ}

/-! ## Evaluation of elements -/

namespace Expr

variable {s : σ}

theorem evaluate_list (items : List Expr) :
    (list items).evaluate f s =
      (.array (evaluateAll f items s).1, (evaluateAll f items s).2) := by
  rw [evaluate]
  rfl

theorem evaluate_operation (op : Operator) (operands : List Expr) :
    (operation op operands).evaluate f s =
      f op (evaluateAll f operands s).1 (evaluateAll f operands s).2 := by
  rw [evaluate]
  rfl

theorem evaluateAll_cons (e : Expr) (rest : List Expr) :
    evaluateAll f (e :: rest) s =
      ((e.evaluate f s).1 :: (evaluateAll f rest (e.evaluate f s).2).1,
        (evaluateAll f rest (e.evaluate f s).2).2) := by
  rw [evaluateAll]
  rfl

theorem evaluateAll_nil : evaluateAll f [] s = ([], s) := by
  rw [evaluateAll]
  rfl

theorem evaluateAll_append (xs ys : List Expr) :
    evaluateAll f (xs ++ ys) s =
      ((evaluateAll f xs s).1 ++ (evaluateAll f ys (evaluateAll f xs s).2).1,
        (evaluateAll f ys (evaluateAll f xs s).2).2) := by
  induction xs generalizing s with
  | nil =>
    rw [evaluateAll_nil]
    rfl
  | cons e rest ih => simp [evaluateAll_cons, ih]

/-- The parts of a tree have the values that its own value contributes to a list. -/
theorem evaluateAll_elements (e : Expr) (span : Span) :
    evaluateAll f e.elements s =
      (Stacked.elements ⟨(e.evaluate f s).1, e.isList, span⟩, (e.evaluate f s).2) := by
  cases e with
  | list items =>
    rw [evaluate_list]
    rfl
  | operand x => simp [elements, isList, evaluateAll_cons, evaluateAll_nil, Stacked.elements]
  | operation op operands =>
    simp [elements, isList, evaluateAll_cons, evaluateAll_nil, Stacked.elements]

end Expr

namespace Element

mutual

/-- No evaluator is called for an element. -/
theorem evaluate_toExpr (g : Evaluator Unit) (element : Element) (s : σ) :
    element.toExpr.evaluate f s = ((element.toExpr.evaluate g ()).1, s) := by
  cases element with
  | operand x =>
    rw [toExpr, Expr.evaluate, Expr.evaluate]
    rfl
  | list elements => rw [toExpr, Expr.evaluate_list, evaluateAll_toExprs g, Expr.evaluate_list]

theorem evaluateAll_toExprs (g : Evaluator Unit) (elements : List Element) (s : σ) :
    Expr.evaluateAll f (toExprs elements) s =
      ((Expr.evaluateAll g (toExprs elements) ()).1, s) := by
  cases elements with
  | nil => rw [toExprs, Expr.evaluateAll_nil, Expr.evaluateAll_nil]
  | cons element rest =>
    rw [toExprs, Expr.evaluateAll_cons, Expr.evaluateAll_cons, evaluate_toExpr g element,
      evaluateAll_toExprs g rest]

end

theorem evaluate_list_toExprs (elements : List Element) (s : σ) :
    (Expr.list (toExprs elements)).evaluate f s = ((Expr.list (toExprs elements)).toValue, s) := by
  rw [Expr.evaluate_list, evaluateAll_toExprs Evaluator.keyed, Expr.toValue, Expr.evaluate_list]

end Element

/-! ## Pending operators -/

/-- All operators outside of the parentheses of a category are of the tiers below this one. -/
def Grammar.Category.bound : Category → Nat
  | .level n => n
  | .operand k => k + 1

namespace Stacks

/-- Applies operators in turn. -/
def reduce (f : Evaluator σ) : List Waiting → List Stacked → Folding σ (List Stacked)
  | .operator op span separated :: rest, values => do
    let values ← apply f op span separated values
    reduce f rest values
  | _, values => return values

/-- An operator of a tier below `bound` that can be applied: no `BETWEEN` lacks its `AND`. -/
inductive Ready (t : OperatorTable) (bound : Nat) : Waiting → Prop
  | operator {op : Operator} {span : Span} {separated : Bool} {j : Nat} : op ∈ t.tier j →
    j < bound → (op = .between → separated) → Ready t bound (.operator op span separated)

variable {ops waiting : List Waiting} {values : List Stacked} {s s' : σ} {bound : Nat}

theorem Ready.mono {x : Waiting} {b b' : Nat} (h : Ready t b x) (hb : b ≤ b') : Ready t b' x := by
  cases h with
  | operator hm hj hs => exact .operator hm (by omega) hs

/-- A function that applies the operators which are ready, one by one, applies all those on top. -/
theorem gives_append {β : Type} {g : List Stacked → List Waiting → Folding σ β} {r : β}
    {values' : List Stacked} {s'' : σ}
    (hg : ∀ op span separated, Ready t bound (.operator op span separated) → ∀ values rest,
      g values (.operator op span separated :: rest) =
        (apply f op span separated values >>= fun values => g values rest))
    (ho : ∀ x ∈ ops, Ready t bound x) (h : Gives (reduce f ops values) s values' s')
    (hr : Gives (g values' waiting) s' r s'') : Gives (g values (ops ++ waiting)) s r s'' := by
  induction ops generalizing values s with
  | nil =>
    obtain ⟨rfl, rfl⟩ := gives_pure_iff.1 h
    exact hr
  | cons x ops ih =>
    have hx := ho x (List.mem_cons_self ..)
    have hops := fun y hy => ho y (List.mem_cons_of_mem x hy)
    obtain ⟨hm, hj, hs⟩ := hx
    obtain ⟨v, s₁, ha, h⟩ := gives_bind_iff.1 h
    rw [List.cons_append, hg _ _ _ (.operator hm hj hs)]
    exact ha.bind (ih hops h)

theorem gives_reduce_append {rest : List Waiting} {values' values'' : List Stacked} {s'' : σ}
    (ho : ∀ x ∈ ops, Ready t bound x) (h : Gives (reduce f ops values) s values' s')
    (hr : Gives (reduce f rest values') s' values'' s'') :
    Gives (reduce f (ops ++ rest) values) s values'' s'' :=
  gives_append (g := fun values ops => reduce f ops values) (fun _ _ _ _ _ _ => rfl) ho h hr

/-! ## What ends an expression -/

/-- What follows applies the operators that are ready, and then finds one that it may not touch. -/
theorem gives_applyWhile {p : Operator → Bool → Bool} {values' : List Stacked}
    (hp : ∀ {op span separated}, Ready t bound (.operator op span separated) →
      p op separated = true)
    (ho : ∀ x ∈ ops, Ready t bound x) (hw : Stops p waiting)
    (h : Gives (reduce f ops values) s values' s') :
    Gives (applyWhile f p values (ops ++ waiting)) s (values', waiting) s' := by
  refine gives_append (fun op span separated hr values rest => ?_) ho h ?_
  · rw [applyWhile, if_pos (hp hr)]
  · rw [applyWhile_of_stops hw]
    exact gives_pure_iff.2 ⟨rfl, rfl⟩

theorem Ready.takes_separator {op : Operator} {span stop : Span} {separated : Bool}
    (h : Ready t bound (.operator op span separated)) :
    takes t (.separator stop) op separated = true := by
  cases h with
  | operator _ _ hs => exact takes_separator_iff.2 (by simpa using hs)

/-- An operator of tier `k` takes those that bind at least as tightly, and no others. -/
theorem Ready.takes_operator {op first : Operator} {span place : Span} {separated : Bool} {k : Nat}
    (hm : op ∈ t.tier k) (hp : ¬ op.isPrefix)
    (h : Ready t (k + 1) (.operator first place separated)) :
    takes t (.operator op span) first separated = true := by
  cases h with
  | operator hf hj _ =>
    rw [Stacks.takes_operator hp, OperatorTable.bindsTighterOrEqual_iff hf hm]
    omega

theorem Above.stops {op : Operator} {span : Span} {k : Nat} (hm : op ∈ t.tier k)
    (hp : ¬ op.isPrefix) (h : Above t (k + 1) waiting) :
    Stops (takes t (.operator op span)) waiting := by
  unfold Stops
  split
  · obtain ⟨j, hj, hf⟩ := h
    rw [Stacks.takes_operator hp, Bool.eq_false_iff, ne_eq,
      OperatorTable.bindsTighterOrEqual_iff hf hm]
    omega
  · trivial

/-! ## One application -/

theorem gives_apply {op : Operator} {span : Span} {separated : Bool} (operands : List Stacked)
    {x : Stacked} (hs : op = .between → separated) (hl : operands.length = op.arity.count)
    (h : Gives (combine f op span operands) s x s') :
    Gives (apply f op span separated (operands.reverse ++ values)) s (x :: values) s' := by
  have hr : operands.reverse.length = op.arity.count := by rw [List.length_reverse, hl]
  rw [apply, if_neg (by simpa using hs), if_neg (by rw [List.length_append, hr]; omega)]
  refine Gives.bind (a := x) ?_ (gives_pure_iff.2 ⟨?_, rfl⟩)
  · rwa [List.take_left' hr, List.reverse_reverse]
  · rw [List.drop_left' hr]

/-- Apart from a comma, an operator with its operands is a call of the evaluator. -/
theorem gives_combine {op : Operator} {span : Span} {operands : List Stacked}
    (hc : op ≠ .comma) (ht : Stacked.invalidTarget? op operands = none) :
    ∃ at', Gives (combine f op span operands) s
      ⟨(f op (operands.map Stacked.value) s).1, false, at'⟩
      (f op (operands.map Stacked.value) s).2 := by
  refine ⟨operands.foldl (fun span x => span.merge x.span) span, ?_⟩
  unfold combine
  simp only [ht, if_neg hc]
  exact Gives.bind (gives_liftState_iff.2 rfl) (gives_pure_iff.2 ⟨rfl, rfl⟩)

theorem gives_combine_unary {op : Operator} (hp : op.isPrefix) (e : Expr) (s : σ)
    (span at' : Span) :
    ∃ at'', Gives (combine f op span [⟨(e.evaluate f s).1, e.isList, at'⟩]) (e.evaluate f s).2
      ⟨((Expr.operation op [e]).evaluate f s).1, false, at''⟩
      ((Expr.operation op [e]).evaluate f s).2 := by
  rw [Expr.evaluate_operation, Expr.evaluateAll_cons, Expr.evaluateAll_nil]
  refine gives_combine ?_ ?_
  · rintro rfl
    cases hp
  · cases op <;> rfl

theorem gives_combine_binary {op : Operator} {x y e : Expr} (h : Expr.binary? op x y = some e)
    (s : σ) (span left right : Span) :
    ∃ at', Gives (combine f op span [⟨(x.evaluate f s).1, x.isList, left⟩,
        ⟨(y.evaluate f (x.evaluate f s).2).1, y.isList, right⟩])
      (y.evaluate f (x.evaluate f s).2).2
      ⟨(e.evaluate f s).1, e.isList, at'⟩ (e.evaluate f s).2 := by
  have hcall (ht : y.isList ∨ op ≠ .isIn) (hc : op ≠ .comma) (he : e = .operation op [x, y]) :
      ∃ at', Gives (combine f op span [⟨(x.evaluate f s).1, x.isList, left⟩,
          ⟨(y.evaluate f (x.evaluate f s).2).1, y.isList, right⟩])
        (y.evaluate f (x.evaluate f s).2).2
        ⟨(e.evaluate f s).1, e.isList, at'⟩ (e.evaluate f s).2 := by
    subst he
    rw [Expr.evaluate_operation, Expr.evaluateAll_cons, Expr.evaluateAll_cons,
      Expr.evaluateAll_nil]
    refine gives_combine hc ?_
    by_cases hi : op = .isIn
    · subst hi
      simpa [Stacked.invalidTarget?] using ht
    · cases op <;> simp_all [Stacked.invalidTarget?]
  unfold Expr.binary? at h
  split at h
  · split at h
    · rename_i hl
      cases h
      exact hcall (.inl hl) (by simp) rfl
    · cases h
  · cases h
    rw [Expr.evaluate_list, Expr.evaluateAll_append, Expr.evaluateAll_elements x left,
      Expr.evaluateAll_elements y right]
    refine ⟨(span.merge left).merge right, ?_⟩
    unfold combine
    simp only [Stacked.invalidTarget?, if_true]
    exact gives_pure_iff.2 ⟨by simp [Expr.isList], rfl⟩
  · rename_i hi hc
    cases h
    exact hcall (.inr hi) hc rfl

theorem gives_combine_between (x low high : Expr) (s : σ) (span left right last : Span) :
    ∃ at', Gives (combine f .between span [⟨(x.evaluate f s).1, x.isList, left⟩,
        ⟨(low.evaluate f (x.evaluate f s).2).1, low.isList, right⟩,
        ⟨(high.evaluate f (low.evaluate f (x.evaluate f s).2).2).1, high.isList, last⟩])
      (high.evaluate f (low.evaluate f (x.evaluate f s).2).2).2
      ⟨((Expr.operation .between [x, low, high]).evaluate f s).1, false, at'⟩
      ((Expr.operation .between [x, low, high]).evaluate f s).2 := by
  rw [Expr.evaluate_operation, Expr.evaluateAll_cons, Expr.evaluateAll_cons,
    Expr.evaluateAll_cons, Expr.evaluateAll_nil]
  exact gives_combine (by simp) rfl

/-! ## Reading a category -/

/-- The items are read, above what is on the stacks, into an expression of the category `c`. The
operators that they leave on top, applied in turn, call the evaluator as the tree does. -/
def Folds (f : Evaluator σ) (t : OperatorTable) (c : Category) (values : List Stacked)
    (waiting : List Waiting) (s : σ) (w : List Item) (e : Expr) : Prop :=
  ∃ values' ops s' span,
    Gives (w.foldlM (step f t) ⟨values, waiting, true⟩) s ⟨values', ops ++ waiting, false⟩ s' ∧
    (∀ x ∈ ops, Ready t c.bound x) ∧
    Gives (reduce f ops values') s' (⟨(e.evaluate f s).1, e.isList, span⟩ :: values)
      (e.evaluate f s).2

namespace Folds

variable {c d : Category} {u v w : List Item} {x y e : Expr} {span stop : Span} {op : Operator}
  {k : Nat}

theorem atom (value : Stacked)
    (h : Gives (w.foldlM (step f t) ⟨values, waiting, true⟩) s ⟨value :: values, waiting, false⟩
      (e.evaluate f s).2)
    (hv : value.value = (e.evaluate f s).1) (hl : value.isList = e.isList) :
    Folds f t (.level 0) values waiting s w e := by
  refine ⟨_, [], _, value.span, h, by simp, gives_pure_iff.2 ⟨?_, rfl⟩⟩
  rw [← hv, ← hl]

theorem mono (h : Folds f t c values waiting s w e) (hb : c.bound ≤ d.bound) :
    Folds f t d values waiting s w e := by
  obtain ⟨values', ops, s', span, hf, ho, hr⟩ := h
  exact ⟨values', ops, s', span, hf, fun x hx => (ho x hx).mono hb, hr⟩

theorem unary (hm : op ∈ t.tier k) (hp : op.isPrefix) (hw : Above t k waiting)
    (h : Folds f t (.operand k) values (.operator op span false :: waiting) s w e) :
    Folds f t (.operand k) values waiting s (.operator op span :: w) (.operation op [e]) := by
  obtain ⟨values', ops, s', at', hf, ho, hr⟩ := h
  have hb : op ≠ .between := by
    rintro rfl
    cases hp
  have hx : Ready t (k + 1) (.operator op span false) := .operator hm k.lt_succ_self (by simp [hb])
  obtain ⟨at'', hc⟩ := gives_combine_unary (f := f) hp e s span at'
  refine ⟨values', ops ++ [.operator op span false], s', at'', ?_, ?_, ?_⟩
  · refine gives_foldlM_cons_iff.2 ⟨_, _, ?_, by simpa using hf⟩
    have ha : (⟨values, waiting, true⟩ : Stacks).admitPrefix t op = .ok () := by
      unfold admitPrefix
      split
      · rename_i lacking _ _ _ hl
        cases hl
        obtain ⟨j, hj, hl⟩ := hw
        rw [if_neg (by rw [OperatorTable.bindsTighter_iff hl hm]; omega)]
      · rfl
    refine gives_step_iff.2 ⟨values, (values, waiting), ?_, ?_, rfl⟩
    · rw [arrive, if_pos hp, ha]
      rfl
    · rw [applyWhile_of_beginsOperand (.operator op span) hp]
      exact gives_pure_iff.2 ⟨rfl, rfl⟩
  · exact List.forall_mem_append.2 ⟨ho, List.forall_mem_singleton.2 hx⟩
  · have ha : op.arity = .unary := by simpa [Operator.isPrefix] using hp
    exact gives_reduce_append ho hr
      (Gives.bind (gives_apply [_] (by simp [hb]) (by simp [ha, Arity.count]) hc)
        (gives_pure_iff.2 ⟨rfl, rfl⟩))

/-- An operator between operands applies all that its left operand left on top. -/
theorem step_operator (hm : op ∈ t.tier k) (hp : ¬ op.isPrefix) (hw : Above t (k + 1) waiting)
    (hx : Folds f t (.level (k + 1)) values waiting s u x) (span : Span) :
    ∃ at', Gives ((u ++ [Item.operator op span]).foldlM (step f t) ⟨values, waiting, true⟩) s
      ⟨⟨(x.evaluate f s).1, x.isList, at'⟩ :: values, .operator op span false :: waiting, true⟩
      (x.evaluate f s).2 := by
  obtain ⟨values', ops, s', at', hf, ho, hr⟩ := hx
  refine ⟨at', gives_foldlM_append_iff.2 ⟨_, _, hf, ?_⟩⟩
  refine gives_foldlM_cons_iff.2 ⟨_, _, ?_, gives_pure_iff.2 ⟨rfl, rfl⟩⟩
  have hstops : Stops (takes t (.operator op span)) waiting := hw.stops hm hp
  have hrun := gives_applyWhile (fun h => h.takes_operator hm hp) ho hstops hr
  exact gives_step_iff.2 ⟨values', _, by simp [arrive, hp], hrun, rfl⟩

theorem binary (hm : op ∈ t.tier k) (ha : op.arity = .binary) (hw : Above t (k + 1) waiting)
    (hx : Folds f t (.level (k + 1)) values waiting s u x)
    (hy : ∀ left, Folds f t (.operand k) (left :: values) (.operator op span false :: waiting)
      (x.evaluate f s).2 w y)
    (he : Expr.binary? op x y = some e) :
    Folds f t (.level (k + 1)) values waiting s (u ++ .operator op span :: w) e := by
  have hp : ¬ op.isPrefix := by simp [Operator.isPrefix, ha]
  have hb : op ≠ .between := by
    rintro rfl
    cases ha
  obtain ⟨left, hl⟩ := hx.step_operator hm hp hw span
  obtain ⟨values', ops, s', right, hf, ho, hr⟩ := hy ⟨(x.evaluate f s).1, x.isList, left⟩
  obtain ⟨at', hc⟩ := gives_combine_binary (f := f) he s span left right
  refine ⟨values', ops ++ [.operator op span false], s', at', ?_, ?_, ?_⟩
  · rw [List.append_cons]
    exact gives_foldlM_append_iff.2 ⟨_, _, hl, by simpa using hf⟩
  · exact List.forall_mem_append.2
      ⟨ho, List.forall_mem_singleton.2 (.operator hm k.lt_succ_self (by simp [hb]))⟩
  · exact gives_reduce_append ho hr
      (Gives.bind (gives_apply [_, _] (by simp [hb]) (by simp [ha, Arity.count]) hc)
        (gives_pure_iff.2 ⟨rfl, rfl⟩))

/-- A separator applies all that the lower bound left on top. -/
theorem step_separator
    (hx : Folds f t c values (.operator .between span false :: waiting) s u x) (stop : Span) :
    ∃ at', Gives ((u ++ [Item.separator stop]).foldlM (step f t)
        ⟨values, .operator .between span false :: waiting, true⟩) s
      ⟨⟨(x.evaluate f s).1, x.isList, at'⟩ :: values, .operator .between span true :: waiting, true⟩
      (x.evaluate f s).2 := by
  obtain ⟨values', ops, s', at', hf, ho, hr⟩ := hx
  refine ⟨at', gives_foldlM_append_iff.2 ⟨_, _, hf, ?_⟩⟩
  refine gives_foldlM_cons_iff.2 ⟨_, _, ?_, gives_pure_iff.2 ⟨rfl, rfl⟩⟩
  have hstops : Stops (takes t (.separator stop)) (.operator .between span false :: waiting) := rfl
  have hrun := gives_applyWhile (fun h => h.takes_separator) ho hstops hr
  refine gives_step_iff.2 ⟨values', _, ?_, hrun, rfl⟩
  rw [arrive, admitEnd_of_complete]
  rfl

theorem between {low high : Expr} (hm : .between ∈ t.tier k) (hw : Above t (k + 1) waiting)
    (hx : Folds f t (.level (k + 1)) values waiting s u x)
    (hy : ∀ left, Folds f t (.operand k) (left :: values) (.operator .between span false :: waiting)
      (x.evaluate f s).2 v low)
    (hz : ∀ left right, Folds f t (.operand k) (right :: left :: values)
      (.operator .between span true :: waiting) (low.evaluate f (x.evaluate f s).2).2 w high) :
    Folds f t (.level (k + 1)) values waiting s
      (u ++ .operator .between span :: v ++ .separator stop :: w)
      (.operation .between [x, low, high]) := by
  obtain ⟨left, hl⟩ := hx.step_operator hm (by decide) hw span
  obtain ⟨right, hr⟩ := (hy ⟨(x.evaluate f s).1, x.isList, left⟩).step_separator stop
  obtain ⟨values', ops, s', at', hf, ho, hv⟩ := hz ⟨(x.evaluate f s).1, x.isList, left⟩
    ⟨(low.evaluate f (x.evaluate f s).2).1, low.isList, right⟩
  obtain ⟨at'', hc⟩ := gives_combine_between (f := f) x low high s span left right at'
  refine ⟨values', ops ++ [.operator .between span true], s', at'', ?_, ?_, ?_⟩
  · have hs : u ++ .operator .between span :: v ++ .separator stop :: w =
        (u ++ [.operator .between span]) ++ ((v ++ [.separator stop]) ++ w) := by simp
    rw [hs]
    refine gives_foldlM_append_iff.2 ⟨_, _, hl, gives_foldlM_append_iff.2 ⟨_, _, hr, ?_⟩⟩
    simpa using hf
  · exact List.forall_mem_append.2
      ⟨ho, List.forall_mem_singleton.2 (.operator hm k.lt_succ_self (by simp))⟩
  · exact gives_reduce_append ho hv
      (Gives.bind (gives_apply [_, _, _] (by simp) rfl hc) (gives_pure_iff.2 ⟨rfl, rfl⟩))

theorem group {start : Span} (h : Folds f t (.level k) values
      (.opening start values.length :: waiting) s w e) :
    Folds f t (.level 0) values waiting s (.opening start :: w ++ [.closing stop]) e := by
  obtain ⟨values', ops, s', at', hf, ho, hr⟩ := h
  refine atom ⟨(e.evaluate f s).1, e.isList, at'⟩ ?_ rfl rfl
  refine gives_foldlM_cons_iff.2 ⟨_, _, Gives.bind (gives_liftExcept_iff.2 ⟨rfl, rfl⟩)
    (gives_pure_iff.2 ⟨rfl, rfl⟩), gives_foldlM_append_iff.2 ⟨_, _, hf, ?_⟩⟩
  refine gives_foldlM_cons_iff.2 ⟨_, _, ?_, gives_pure_iff.2 ⟨rfl, rfl⟩⟩
  have hstops : Stops (takes t (.closing stop)) (.opening start values.length :: waiting) := trivial
  have hrun := gives_applyWhile (fun _ => rfl) ho hstops hr
  exact gives_step_iff.2 ⟨values', _, closeGroup_of_complete stop, hrun, rfl⟩

end Folds

/-- What the grammar derives is folded wherever an operand of its tiers is lacking. -/
theorem folds_of_derives {c : Category} {w : List Item} {e : Expr} (h : Derives t c w e)
    (values : List Stacked) (waiting : List Waiting) (s : σ) (hw : Above t c.floor waiting) :
    Folds f t c values waiting s w e := by
  induction h generalizing values waiting s with
  | @operand x span =>
    refine .atom ⟨x.toValue, false, span⟩ ?_ (by rw [Expr.evaluate]; rfl) rfl
    rw [Expr.evaluate]
    exact gives_foldlM_cons_iff.2 ⟨_, _, Gives.bind (gives_liftExcept_iff.2 ⟨rfl, rfl⟩)
      (gives_pure_iff.2 ⟨rfl, rfl⟩), gives_pure_iff.2 ⟨rfl, rfl⟩⟩
  | @list elements span =>
    have he := Element.evaluate_list_toExprs (f := f) elements s
    refine .atom ⟨(Expr.list (Element.toExprs elements)).toValue, true, span⟩ ?_ ?_ rfl
    · rw [he]
      exact gives_foldlM_cons_iff.2 ⟨_, _, Gives.bind (gives_liftExcept_iff.2 ⟨rfl, rfl⟩)
        (gives_pure_iff.2 ⟨rfl, rfl⟩), gives_pure_iff.2 ⟨rfl, rfl⟩⟩
    · rw [he]
  | @empty start stop =>
    have he : (Expr.list []).evaluate f s = (.array [], s) := by
      rw [Expr.evaluate_list, Expr.evaluateAll_nil]
    refine .atom ⟨.array [], true, stop⟩ ?_ (by rw [he]) rfl
    rw [he]
    refine gives_foldlM_cons_iff.2 ⟨_, _, Gives.bind (gives_liftExcept_iff.2 ⟨rfl, rfl⟩)
      (gives_pure_iff.2 ⟨rfl, rfl⟩), ?_⟩
    refine gives_foldlM_cons_iff.2 ⟨_, _, ?_, gives_pure_iff.2 ⟨rfl, rfl⟩⟩
    have hc : (⟨values, .opening start values.length :: waiting, true⟩ : Stacks).closeGroup stop =
        .ok (⟨.array [], true, stop⟩ :: values) := by
      simp [closeGroup]
    rw [step, hc]
    exact Gives.bind (gives_liftExcept_iff.2 ⟨rfl, rfl⟩)
      (Gives.bind (gives_pure_iff.2 ⟨rfl, rfl⟩) (gives_pure_iff.2 ⟨rfl, rfl⟩))
  | @group start stop w e _ ih =>
    exact (ih values (.opening start values.length :: waiting) s trivial).group
  | bare _ ih => exact (ih _ _ _ hw).mono (Nat.le_succ _)
  | unary hm hp _ ih => exact (ih _ _ _ (above_cons hm _ _)).unary hm hp hw
  | single _ ih => exact (ih _ _ _ (hw.mono (Nat.le_succ _))).mono (Nat.le_refl _)
  | binary hm ha _ _ he ihx ihy =>
    exact (ihx _ _ _ hw).binary hm ha hw (fun _ => ihy _ _ _ (above_cons hm _ _)) he
  | between hm _ _ _ ihx ihy ihz =>
    exact (ihx _ _ _ hw).between hm hw (fun _ => ihy _ _ _ (above_cons hm _ _))
      fun _ _ => ihz _ _ _ (above_cons hm _ _)

end Stacks

/-! ## Clauses -/

/-- The items of a clause are folded into the value of its tree. -/
theorem Value.gives_ofItems {items : List Item} {e : Expr} (h : IsClause t items e) (s : σ) :
    Gives (Value.ofItems f t items) s (e.evaluate f s).1 (e.evaluate f s).2 := by
  obtain ⟨values, ops, s', span, hf, ho, hr⟩ := Stacks.folds_of_derives (f := f) h.2 [] [] s trivial
  obtain rfl : ops = [] := by
    refine List.eq_nil_iff_forall_not_mem.2 fun x hx => ?_
    obtain ⟨-, hj, -⟩ := ho x hx
    exact Nat.not_lt_zero _ hj
  obtain ⟨rfl, rfl⟩ := gives_pure_iff.1 hr
  exact hf.bind (gives_liftExcept_iff.2 ⟨rfl, rfl⟩)

end WhereClause
