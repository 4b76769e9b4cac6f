import WhereClause.Proofs.Expr.Faithful
import WhereClause.Proofs.Item.Lineage

/-!
# Reading the text of a list after `IN`

The parentheses after an `IN` are read without regard to operators, up to the one that closes them,
whatever tokens of a tree stand between. The elements that come out are those of the list, if it has
no operation in it: tokens of an operation become elements of their own.

The judgement `Captures` says both, so one induction over the shape of the tree gives both.
-/

namespace WhereClause

/-! ## Runs -/

namespace Tagging

/-- The tokens take a state to another one. -/
def Run (state : Tagging) (tokens : List Token) (state' : Tagging) : Prop :=
  tokens.foldlM (step .standard) state = .ok state'

variable {state state' state'' : Tagging} {token : Token} {tokens tokens' : List Token}

theorem run_nil (state : Tagging) : Run state [] state := rfl

theorem Run.cons (h : step .standard state token = .ok state') (hr : Run state' tokens state'') :
    Run state (token :: tokens) state'' :=
  foldlM_cons_eq_ok_iff.2 ⟨state', h, hr⟩

theorem run_singleton (h : step .standard state token = .ok state') : Run state [token] state' :=
  .cons h (run_nil state')

theorem Run.append (h : Run state tokens state') (hr : Run state' tokens' state'') :
    Run state (tokens ++ tokens') state'' :=
  foldlM_append_eq_ok_iff.2 ⟨state', h, hr⟩

/-! ## Tokens of a literal list -/

theorem step_of_capture {capture : Capture} (h : state.capture = some capture) :
    step .standard state token = .ok (readListToken state capture token) := by
  unfold step
  rw [h]

theorem readListToken_eq_push {capture : Capture} (ho : token.kind ≠ .punctuation '(')
    (hc : token.kind ≠ .punctuation ')') :
    readListToken state capture token = { state with capture := some (capture.push token) } := by
  unfold readListToken
  split
  · contradiction
  · contradiction
  · rfl

theorem readListToken_opening {capture : Capture} (h : token.kind = .punctuation '(') :
    readListToken state capture token =
      { state with
        capture := some
          { inner := { span := token.span }, outer := capture.inner :: capture.outer } } := by
  unfold readListToken
  simp only [h]

theorem readListToken_closing {capture : Capture} {list : OpenList} {outer : List OpenList}
    (h : token.kind = .punctuation ')') (ho : capture.outer = list :: outer) :
    readListToken state capture token =
      { state with
        capture := some
          { inner := list.push (.list (Element.collapse capture.inner.elements.reverse))
            outer } } := by
  unfold readListToken
  simp only [h, ho]

theorem readListToken_last {capture : Capture} (h : token.kind = .punctuation ')')
    (ho : capture.outer = []) :
    readListToken state capture token =
      { state with capture := none }.push
        (.list (Element.collapse capture.inner.elements.reverse)
          (capture.inner.span.merge token.span)) := by
  unfold readListToken
  simp only [h, ho]

end Tagging

/-- Tokens in parentheses. -/
theorem exists_of_enclosed {tokens : List Token} {ks : List Token.Kind}
    (h : tokens.map Token.kind = Expr.enclosed ks) :
    ∃ opening ts closing, tokens = opening :: (ts ++ [closing]) ∧
      opening.kind = .punctuation '(' ∧ ts.map Token.kind = ks ∧
      closing.kind = .punctuation ')' := by
  obtain ⟨opening, rest, rfl, hopening, h⟩ := List.map_eq_cons_iff.1 h
  obtain ⟨ts, last, rfl, hts, h⟩ := List.map_eq_append_iff.1 h
  obtain ⟨closing, rfl, hclosing⟩ := List.map_eq_singleton_iff.1 h
  exact ⟨opening, ts, closing, rfl, hopening, hts, hclosing⟩

theorem Capture.outer_push (capture : Capture) (token : Token) :
    (capture.push token).outer = capture.outer := by
  unfold Capture.push
  split <;> rfl

open Tagging

/-- Tokens of these kinds stay inside of the innermost literal list, whichever it is. If `good`
holds, they are read as these elements. -/
def Captures (ks : List Token.Kind) (es : List Expr) (good : Prop) : Prop :=
  ∀ (state : Tagging) (capture : Capture) (tokens : List Token), state.capture = some capture →
    tokens.map Token.kind = ks →
      ∃ capture', Run state tokens { state with capture := some capture' } ∧
        capture'.outer = capture.outer ∧
        (good → capture.minus = false → ∃ elements : List Element,
          capture'.inner.elements = elements.reverse ++ capture.inner.elements ∧
            Expr.sameAll (Element.toExprs elements) es = true)

variable {ks ks' : List Token.Kind} {es es' : List Expr} {good good' : Prop}

theorem Captures.imp (h : Captures ks es good) (hg : good' → good) : Captures ks es good' := by
  intro state capture tokens hs ht
  obtain ⟨capture', hr, ho, he⟩ := h state capture tokens hs ht
  exact ⟨capture', hr, ho, fun hgood => he (hg hgood)⟩

/-- Nothing is said of the elements. -/
theorem Captures.stay (h : Captures ks es good) (es' : List Expr) : Captures ks es' False := by
  intro state capture tokens hs ht
  obtain ⟨capture', hr, ho, -⟩ := h state capture tokens hs ht
  exact ⟨capture', hr, ho, False.elim⟩

theorem Captures.append_stay (h : Captures ks es False) (h' : Captures ks' es False) :
    Captures (ks ++ ks') es False := by
  intro state capture tokens hs ht
  obtain ⟨ts, ts', rfl, hts, hts'⟩ := List.map_eq_append_iff.1 ht
  obtain ⟨mid, hr, ho, -⟩ := h state capture ts hs hts
  obtain ⟨capture', hr', ho', -⟩ := h' { state with capture := some mid } mid ts' rfl hts'
  exact ⟨capture', hr.append hr', ho'.trans ho, False.elim⟩

/-- A token that is no parenthesis. -/
theorem captures_token {k : Token.Kind} (ho : k ≠ .punctuation '(') (hc : k ≠ .punctuation ')')
    (hp : ∀ (capture : Capture) (token : Token), token.kind = k → good → capture.minus = false →
      ∃ elements : List Element,
        (capture.push token).inner.elements = elements.reverse ++ capture.inner.elements ∧
          Expr.sameAll (Element.toExprs elements) es = true) :
    Captures [k] es good := by
  intro state capture tokens hs ht
  obtain ⟨token, rfl, rfl⟩ := List.map_eq_singleton_iff.1 ht
  refine ⟨capture.push token, run_singleton ?_, capture.outer_push token, hp capture token rfl⟩
  rw [step_of_capture hs, readListToken_eq_push ho hc]

theorem captures_stay {k : Token.Kind} (ho : k ≠ .punctuation '(') (hc : k ≠ .punctuation ')')
    (es : List Expr) : Captures [k] es False :=
  captures_token ho hc fun _ _ _ h => h.elim

/-- A token that stands for an operand. -/
theorem captures_operand {k : Token.Kind} {x y : Operand} (ho : k ≠ .punctuation '(')
    (hc : k ≠ .punctuation ')') (hxy : (x == y) = true)
    (hx : ∀ token : Token, token.kind = k → Element.ofToken? token = some (.operand x)) :
    Captures [k] [.operand y] good := by
  refine captures_token ho hc fun capture token hk _ hm => ⟨[.operand x], ?_, ?_⟩
  · unfold Capture.push
    rw [hm, if_neg Bool.false_ne_true, hx token hk]
    rfl
  · simpa [Element.toExprs, Element.toExpr, Expr.sameAll, Expr.same] using hxy

/-! ## Leaves -/

theorem Operand.beq_identifier (name : String) :
    (Operand.identifier name == .identifier name) = true :=
  beq_self_eq_true name

theorem Operand.beq_string (text : String) :
    (Operand.literal (.string text) == .literal (.string text)) = true :=
  beq_self_eq_true text

/-- A minus and a number are one element. -/
theorem captures_signed {v v' value : Literal} (hn : v.negated? = some v')
    (hv : (v' == value) = true) :
    Captures [.operator "-", .literal v none] [.operand (.literal value)] good := by
  intro state capture tokens hs ht
  obtain ⟨minus, rest, rfl, hminus, ht⟩ := List.map_eq_cons_iff.1 ht
  obtain ⟨number, rfl, hnumber⟩ := List.map_eq_singleton_iff.1 ht
  have hstep {s : Tagging} {c : Capture} {t : Token} (hs : s.capture = some c)
      (ho : t.kind ≠ .punctuation '(') (hc : t.kind ≠ .punctuation ')') :
      step .standard s t = .ok { s with capture := some (c.push t) } := by
    rw [step_of_capture hs, readListToken_eq_push ho hc]
  refine ⟨(capture.push minus).push number,
    .cons (hstep hs ?_ ?_) (run_singleton (hstep rfl ?_ ?_)), ?_,
    fun _ hm => ⟨[.operand (.literal v')], ?_, ?_⟩⟩
  · simp [hminus]
  · simp [hminus]
  · simp [hnumber]
  · simp [hnumber]
  · rw [Capture.outer_push, Capture.outer_push]
  · have hpush : capture.push minus =
        { capture with
          inner := capture.inner.push (.operand (.identifier "-"))
          minus := true } := by
      unfold Capture.push
      rw [hm, if_neg Bool.false_ne_true]
      simp [Element.ofToken?, Token.isMinus, hminus]
    rw [hpush]
    simp [Capture.push, Token.negated?, hnumber, hn, OpenList.replaceLast, OpenList.push]
  · have hv : (Operand.literal v' == .literal value) = true := hv
    simpa [Element.toExprs, Element.toExpr, Expr.sameAll, Expr.same] using hv

theorem Operand.Spelled.captures {listed : Bool} {x : Operand} (h : Spelled listed x ks) :
    Captures ks [.operand x] x.Whole := by
  cases h with
  | string =>
    exact captures_operand (by simp) (by simp) (beq_string _) fun token hk => by
      rw [Element.ofToken?, hk]
  | plain _ _ hv =>
    exact captures_operand (by simp) (by simp) hv fun token hk => by
      rw [Element.ofToken?, hk]
  | signed _ hn hv => exact captures_signed hn hv
  | @broken value name k sign hs hsign _ _ hk hm =>
    have hname : Captures [.identifier name] [.operand (.literal value)] False :=
      captures_stay (by simp) (by simp) _
    have hminus : Captures [.operator "-"] [.operand (.literal value)] False :=
      captures_stay (by simp) (by simp) _
    have hrest := hname.append_stay (hminus.append_stay (captures_stay (hk _) (hk _) _))
    have hwhole : ¬ (Operand.literal value).Whole := fun h => h (string?_literal hs).1 hm
    rcases hsign with rfl | rfl
    · exact hrest.imp hwhole
    · exact (hminus.append_stay hrest).imp hwhole
  | name =>
    exact captures_operand (by simp) (by simp) (beq_identifier _) fun token hk => by
      rw [Element.ofToken?, hk]
  | symbol =>
    exact captures_operand (by simp) (by simp) (beq_identifier _) fun token hk => by
      rw [Element.ofToken?, hk]

/-! ## Lists -/

theorem Expr.sameAll_append {xs ys xs' ys' : List Expr} (h : sameAll xs ys = true)
    (h' : sameAll xs' ys' = true) : sameAll (xs ++ xs') (ys ++ ys') = true := by
  induction xs generalizing ys with
  | nil =>
    cases ys with
    | nil => exact h'
    | cons y ys => cases h
  | cons x xs ih =>
    cases ys with
    | nil => cases h
    | cons y ys =>
      rw [sameAll, Bool.and_eq_true_iff] at h
      rw [List.cons_append, List.cons_append, sameAll, h.1, ih h.2]
      rfl

/-- A list that is the same as one without a list as its only element has no such element either. -/
theorem Element.collapse_of_same {elements : List Element}
    (h : Expr.sameAll (toExprs elements) es = true) (hne : ∀ inner, es ≠ [.list inner]) :
    collapse elements = elements := by
  unfold collapse
  split
  · rename_i inner
    match es with
    | [] => cases h
    | [.operand _] => cases h
    | [.list items] => exact absurd rfl (hne items)
    | [.operation _ _] => cases h
    | _ :: _ :: _ => simp [toExprs, Expr.sameAll] at h
  · rfl

/-- A comma takes away the minus that waits for a number. -/
theorem Captures.comma (h : Captures ks es good) (h' : Captures ks' es' good') :
    Captures (ks ++ .punctuation ',' :: ks') (es ++ es') (good ∧ good') := by
  intro state capture tokens hs ht
  obtain ⟨ts, rest, rfl, hts, ht⟩ := List.map_eq_append_iff.1 ht
  obtain ⟨comma, ts', rfl, hcomma, hts'⟩ := List.map_eq_cons_iff.1 ht
  obtain ⟨mid, hr, ho, he⟩ := h state capture ts hs hts
  have hpush : mid.push comma = { mid with minus := false } := by
    simp [Capture.push, Token.negated?, Element.ofToken?, hcomma]
  have hstep : step .standard { state with capture := some mid } comma =
      .ok { state with capture := some { mid with minus := false } } := by
    rw [step_of_capture rfl, readListToken_eq_push (by simp [hcomma]) (by simp [hcomma]), hpush]
  obtain ⟨capture', hr', ho', he'⟩ :=
    h' { state with capture := some { mid with minus := false } } _ ts' rfl hts'
  refine ⟨capture', hr.append (.cons hstep hr'), ho'.trans ho, fun hg hm => ?_⟩
  obtain ⟨els, hels, hsame⟩ := he hg.1 hm
  obtain ⟨els', hels', hsame'⟩ := he' hg.2 rfl
  refine ⟨els ++ els', ?_, ?_⟩
  · rw [hels', hels, List.reverse_append, List.append_assoc]
  · rw [Element.toExprs_eq] at hsame hsame' ⊢
    rw [List.map_append]
    exact Expr.sameAll_append hsame hsame'

/-- A list that is closed is one element of the list around it. -/
theorem Captures.enclosed (h : Captures ks es good) (hne : ∀ inner, es ≠ [.list inner]) :
    Captures (Expr.enclosed ks) [.list es] good := by
  intro state capture tokens hs ht
  obtain ⟨opening, ts, closing, rfl, hopening, hts, hclosing⟩ := exists_of_enclosed ht
  let inner : Capture :=
    { inner := { span := opening.span }, outer := capture.inner :: capture.outer }
  have hopen : step .standard state opening = .ok { state with capture := some inner } := by
    rw [step_of_capture hs, readListToken_opening hopening]
  obtain ⟨mid, hr, ho, he⟩ := h { state with capture := some inner } inner ts rfl hts
  have hclose : step .standard { state with capture := some mid } closing = .ok _ :=
    step_of_capture rfl
  rw [readListToken_closing hclosing ho] at hclose
  refine ⟨_, .cons hopen (hr.append (run_singleton hclose)), rfl, fun hg _ => ?_⟩
  obtain ⟨els, hels, hsame⟩ := he hg rfl
  have hrev : mid.inner.elements.reverse = els := by simp [hels, inner]
  refine ⟨[.list els], ?_, ?_⟩
  · rw [hrev, Element.collapse_of_same hsame hne]
    rfl
  · simpa [Element.toExprs, Element.toExpr, Expr.sameAll, Expr.same] using hsame

/-! ## Trees -/

theorem captures_nil : Captures [] [] good := by
  intro state capture tokens hs ht
  obtain rfl := List.map_eq_nil_iff.1 ht
  exact ⟨capture, by rw [← hs]; exact run_nil state, rfl, fun _ _ => ⟨[], rfl, rfl⟩⟩

namespace Expr

theorem captures_separated {good : Expr → Prop} {es : List Expr}
    (h : ∀ e ∈ es, Captures e.innerKinds [e] (good e)) :
    Captures (separated (es.map innerKinds)) es (∀ e ∈ es, good e) := by
  match es with
  | [] => exact captures_nil
  | [e] => exact (h e (by simp)).imp fun hg => hg e (by simp)
  | e :: e' :: rest =>
    have hrest := captures_separated fun x hx => h x (List.mem_cons_of_mem e hx)
    exact ((h e (by simp)).comma hrest).imp List.forall_mem_cons.1

theorem stay_operator (op : Operator) : Captures [op.kind] [] False := by
  unfold Operator.kind
  split <;> exact captures_stay (by simp) (by simp) []

theorem stay_flatten {xs : List (List Token.Kind)} (h : ∀ ks ∈ xs, Captures ks [] False) :
    Captures xs.flatten [] False := by
  induction xs with
  | nil => exact captures_nil
  | cons x rest ih =>
    rw [List.flatten_cons]
    exact (h x (by simp)).append_stay (ih fun ks hks => h ks (List.mem_cons_of_mem x hks))

theorem stay_operationKinds (op : Operator) {xs : List (List Token.Kind)}
    (h : ∀ ks ∈ xs, Captures ks [] False) : Captures (operationKinds op xs) [] False := by
  have hop := stay_operator op
  unfold operationKinds
  split
  · exact hop.append_stay (h _ (by simp))
  · exact (h _ (by simp)).append_stay (hop.append_stay (h _ (by simp)))
  · rename_i x low high
    have hlow := (h x (by simp)).append_stay (hop.append_stay (h low (by simp)))
    exact hlow.append_stay ((stay_operator .and).append_stay (h _ (by simp)))
  · exact hop.append_stay (stay_flatten h)

theorem captures_operation {op : Operator} {operands : List Expr} {good : Expr → Prop}
    (h : ∀ e ∈ operands, Captures e.innerKinds [e] (good e)) (hg : ¬ good') :
    Captures (innerKinds (.operation op operands)) [.operation op operands] good' := by
  have hstay : ∀ ks ∈ operands.map innerKinds, Captures ks [] False := by
    intro ks hks
    obtain ⟨e, he, rfl⟩ := List.mem_map.1 hks
    exact (h e he).stay []
  have hk : innerKinds (.operation op operands) =
      enclosed (operationKinds op (operands.map innerKinds)) := by
    rw [innerKinds, kinds_operation]
    rfl
  rw [hk]
  exact (((stay_operationKinds op hstay).enclosed (by simp)).stay _).imp hg

theorem regularAll_iff {listed : Bool} {es : List Expr} :
    regularAll listed es = true ↔ ∀ e ∈ es, e.regular listed = true := by
  induction es with
  | nil => simp [regularAll]
  | cons e rest ih => rw [regularAll, Bool.and_eq_true_iff, ih, List.forall_mem_cons]

/-- A tree in a list after `IN` stays inside of it, and is an element of it if no operation is in
the tree. -/
theorem captures {listed : Bool} {e : Expr} (h : Shaped Operand.Readable listed e) :
    Captures e.innerKinds [e] (e.regular true = true ∧ ∀ x ∈ e.leaves, x.Whole) := by
  induction h with
  | @operand _ x hx =>
    have hk : (Expr.operand x).innerKinds = x.kinds := by
      rw [innerKinds, kinds]
      rfl
    rw [hk]
    exact (Operand.spelled hx).1.captures.imp fun hg => hg.2 x (by simp [leaves])
  | @list listed items _ hf ht ih =>
    have hk : (Expr.list items).innerKinds = enclosed (separated (items.map innerKinds)) := by
      rw [innerKinds, kinds_list]
      rfl
    have hne : ∀ inner, items ≠ [.list inner] := by
      intro inner hi
      cases listed with
      | true => exact ht rfl inner hi
      | false => exact absurd (hf rfl (.list inner) (by simp [hi])) (by simp [isList])
    rw [hk]
    refine ((captures_separated ih).enclosed hne).imp fun hg e he => ?_
    rw [regular, Bool.true_or, Bool.true_and, regularAll_iff, leaves_list] at hg
    exact ⟨hg.1 e he, fun x hx => hg.2 x (List.mem_flatMap.2 ⟨e, he, hx⟩)⟩
  | @isIn _ x items _ _ ihx ihy =>
    have hall : ∀ e ∈ [x, .list items],
        Captures e.innerKinds [e] (e.regular true = true ∧ ∀ x ∈ e.leaves, x.Whole) :=
      List.forall_mem_cons.2 ⟨ihx, by simpa using ihy⟩
    exact captures_operation hall (by simp [regular_listed])
  | operation _ _ _ _ _ ih => exact captures_operation ih (by simp [regular_listed])

/-- Elements have no operations. -/
theorem regular_of_same {e : Expr} {element : Element} (h : element.toExpr.same e = true) :
    e.regular true = true := by
  induction e using induction_subtrees generalizing element with
  | operand x => rw [regular, Bool.true_or]
  | list items ih =>
    cases element with
    | operand x => cases h
    | list elements =>
      rw [Element.toExpr, same, Element.toExprs_eq] at h
      rw [regular, Bool.true_or, Bool.true_and]
      induction items generalizing elements with
      | nil => rfl
      | cons e rest ihr =>
        cases elements with
        | nil => cases h
        | cons element elements =>
          rw [List.map_cons, sameAll, Bool.and_eq_true_iff] at h
          rw [regularAll, ih e (by simp) h.1, Bool.true_and]
          exact ihr (fun e' he' => ih e' (List.mem_cons_of_mem e he')) elements h.2
  | operation op operands =>
    cases element with
    | operand x => cases h
    | list elements => cases h

end Expr

/-- The list after an `IN` is read as one item, and with the same elements exactly if no operation
is in it. -/
theorem Tagging.exists_run_list {state : Tagging} {tokens : List Token} {items : List Expr}
    (hc : state.capture = none) (ha : state.afterIn = true)
    (h : Expr.Shaped Operand.Readable true (.list items))
    (hw : ∀ x ∈ (Expr.list items).leaves, x.Whole)
    (ht : tokens.map Token.kind = (Expr.list items).kinds) :
    ∃ elements span, Run state tokens (state.push (.list elements span)) ∧
      ((Expr.list (Element.toExprs elements)).same (.list items) = true ↔
        (Expr.list items).regular true = true) := by
  rw [Expr.kinds_list] at ht
  obtain ⟨opening, ts, closing, rfl, hopening, hts, hclosing⟩ := exists_of_enclosed ht
  obtain ⟨hi, hne⟩ : (∀ e ∈ items, Expr.Shaped Operand.Readable true e) ∧
      ∀ inner, items ≠ [.list inner] := by
    cases h with
    | list hi _ hne => exact ⟨hi, hne rfl⟩
  let inner : Capture := { inner := { span := opening.span } }
  have hopen : step .standard state opening = .ok { state with capture := some inner } := by
    unfold step
    rw [hc]
    unfold readToken
    simp only [hopening, ha, if_true, inner]
  obtain ⟨mid, hr, ho, he⟩ := Expr.captures_separated (fun e he => Expr.captures (hi e he))
    { state with capture := some inner } inner ts rfl hts
  have hclose : step .standard { state with capture := some mid } closing = .ok _ :=
    step_of_capture rfl
  have hs : { state with capture := none } = state := by rw [← hc]
  rw [readListToken_last hclosing ho, hs] at hclose
  refine ⟨Element.collapse mid.inner.elements.reverse, mid.inner.span.merge closing.span, ?_, ?_⟩
  · exact .cons hopen (hr.append (run_singleton hclose))
  · refine ⟨fun hsame => ?_, fun hreg => ?_⟩
    · have hel : (Element.list (Element.collapse mid.inner.elements.reverse)).toExpr.same
          (.list items) = true := hsame
      exact Expr.regular_of_same hel
    · rw [Expr.regular, Bool.true_or, Bool.true_and, Expr.regularAll_iff] at hreg
      rw [Expr.leaves_list] at hw
      obtain ⟨els, hels, hsame⟩ := he (fun e he =>
        ⟨hreg e he, fun x hx => hw x (List.mem_flatMap.2 ⟨e, he, hx⟩)⟩) rfl
      have hrev : mid.inner.elements.reverse = els := by simp [hels, inner]
      rw [hrev, Element.collapse_of_same hsame hne]
      exact hsame

end WhereClause
