import WhereClause.Proofs.Item.Recapture
import WhereClause.Proofs.Item.Separators

/-!
# The list after `IN`

The judgement `Token.Lists` says which elements tokens are, apart from how they are read: one by
one, with open lists on a stack and a minus that waits for its number. Tokens have at most one such
reading, and up to a parenthesis that closes they have one.

Reading tokens adds the elements to the innermost open list and leaves all else as it was. So what
stands in the parentheses after an `IN` becomes one item, and what comes before and after does not
depend on it.
-/

namespace WhereClause

/-! ## Elements of tokens -/

/-- A list whose only element is a list stands for that list, and any other one for itself. -/
inductive Element.Collapses : List Element → List Element → Prop
  | only (es : List Element) : Collapses [.list es] es
  | other {es : List Element} : (∀ inner, es ≠ [.list inner]) → Collapses es es

theorem Element.collapses_iff {es listed : List Element} :
    Collapses es listed ↔ listed = collapse es := by
  constructor
  · intro h
    cases h with
    | only => rfl
    | other hne =>
      unfold collapse
      split
      · rename_i inner
        exact absurd rfl (hne inner)
      · rfl
  · rintro rfl
    unfold collapse
    split
    · exact .only _
    · rename_i hne
      exact .other hne

/-- Tokens of a literal list and their elements. -/
inductive Token.Lists : List Token → List Element → Prop
  | nil : Lists [] []
  /-- A comma has no element. -/
  | comma {token : Token} {rest : List Token} {es : List Element} :
    token.kind = .punctuation ',' → Lists rest es → Lists (token :: rest) es
  /-- A minus is the sign of the number directly after it. -/
  | signed {minus number : Token} {rest : List Token} {v value : Literal} {es : List Element} :
    minus.kind = .operator "-" → number.kind = .literal v none → v.negated? = some value →
      Lists rest es → Lists (minus :: number :: rest) (.operand (.literal value) :: es)
  | literal {token : Token} {rest : List Token} {value : Literal} {quote : Option Char}
    {es : List Element} : token.kind = .literal value quote → Lists rest es →
      Lists (token :: rest) (.operand (.literal value) :: es)
  | name {token : Token} {rest : List Token} {text : String} {es : List Element} :
    token.kind = .identifier text → Lists rest es →
      Lists (token :: rest) (.operand (.identifier text) :: es)
  /-- A symbol, which is no sign. -/
  | symbol {token : Token} {rest : List Token} {text : String} {es : List Element} :
    token.kind = .operator text → (text = "-" → rest.head?.bind Token.negated? = none) →
      Lists rest es → Lists (token :: rest) (.operand (.identifier text) :: es)
  | mark {token : Token} {rest : List Token} {c : Char} {es : List Element} :
    token.kind = .punctuation c → c ≠ '(' → c ≠ ')' → c ≠ ',' → Lists rest es →
      Lists (token :: rest) (.operand (.identifier c.toString) :: es)
  /-- What stands in parentheses is one element. -/
  | nested {opening closing : Token} {inner rest : List Token} {es listed es' : List Element} :
    opening.isOpening = true → Lists inner es → Element.Collapses es listed →
      closing.isClosing = true → Lists rest es' →
        Lists (opening :: inner ++ closing :: rest) (.list listed :: es')

/-- No list in the element, itself included, has a list as its only element. -/
inductive Element.Reduced : Element → Prop
  | operand (x : Operand) : Reduced (.operand x)
  | list {es : List Element} : (∀ e ∈ es, Reduced e) → (∀ inner, es ≠ [.list inner]) →
    Reduced (.list es)

theorem Element.Collapses.reduced {es listed : List Element} (h : Collapses es listed)
    (he : ∀ e ∈ es, e.Reduced) : Reduced (.list listed) := by
  cases h with
  | only => exact he _ (List.mem_singleton_self _)
  | other hne => exact .list he hne

namespace Token

variable {token : Token} {tokens rest : List Token} {es : List Element}

theorem Lists.reduced (h : Lists tokens es) : ∀ e ∈ es, e.Reduced := by
  induction h with
  | nil => simp
  | comma _ _ ih => exact ih
  | signed _ _ _ _ ih | literal _ _ ih | name _ _ ih | symbol _ _ _ ih | mark _ _ _ _ _ ih =>
    exact List.forall_mem_cons.2 ⟨.operand _, ih⟩
  | nested _ _ hl _ _ ih ih' => exact List.forall_mem_cons.2 ⟨hl.reduced ih, ih'⟩

theorem balanced_cons (ho : token.kind ≠ .punctuation '(') (hc : token.kind ≠ .punctuation ')')
    (h : Balanced rest) : Balanced (token :: rest) :=
  (balanced_singleton (Bool.eq_false_iff.2 (mt isOpening_iff.1 ho))
    (Bool.eq_false_iff.2 (mt isClosing_iff.1 hc))).append h

theorem Lists.balanced (h : Lists tokens es) : Balanced tokens := by
  induction h with
  | nil => exact balanced_nil
  | comma hk _ ih | literal hk _ ih | name hk _ ih | symbol hk _ _ ih =>
    exact balanced_cons (by simp [hk]) (by simp [hk]) ih
  | signed hm hn _ _ ih =>
    exact balanced_cons (by simp [hm]) (by simp [hm])
      (balanced_cons (by simp [hn]) (by simp [hn]) ih)
  | mark hk ho hc _ _ ih => exact balanced_cons (by simp [hk, ho]) (by simp [hk, hc]) ih
  | nested ho _ _ hc _ ih ih' =>
    rw [List.append_cons]
    exact (ih.wrap ho hc).append ih'

/-! ## Tokens up to a closing parenthesis -/

/-- Another token may be put before, and becomes the sign of a number. -/
theorem Lists.exists_cons (h : Lists rest es) (ho : token.kind ≠ .punctuation '(')
    (hc : token.kind ≠ .punctuation ')') : ∃ es', Lists (token :: rest) es' := by
  cases hk : token.kind with
  | literal value quote => exact ⟨_, .literal hk h⟩
  | identifier text => exact ⟨_, .name hk h⟩
  | punctuation c =>
    have hopening : c ≠ '(' := fun hm => ho (by rw [hk, hm])
    have hclosing : c ≠ ')' := fun hm => hc (by rw [hk, hm])
    by_cases hcomma : c = ','
    · exact ⟨_, .comma (by rw [hk, hcomma]) h⟩
    · exact ⟨_, .mark hk hopening hclosing hcomma h⟩
  | operator text =>
    by_cases hsign : text = "-" → rest.head?.bind negated? = none
    · exact ⟨_, .symbol hk hsign h⟩
    · -- the number has been read as a literal, and its sign is added
      obtain ⟨rfl, hsome⟩ := Classical.not_imp.1 hsign
      cases h with
      | nil => exact absurd rfl hsome
      | @literal number rest v quote es hn hrest =>
        cases quote with
        | some quote => simp [negated?, hn] at hsome
        | none =>
          obtain ⟨value, hv⟩ := Option.ne_none_iff_exists'.1 hsome
          exact ⟨_, .signed hk hn (by simpa [negated?, hn] using hv) hrest⟩
      | comma hn | signed hn | name hn | symbol hn | mark hn => simp [negated?, hn] at hsome
      | nested hopening => simp [negated?, isOpening_iff.1 hopening] at hsome

/-- If a parenthesis is closed that is not opened, the tokens before it have a reading. -/
theorem exists_lists {rest : List Token} (h : ¬ Closable rest) :
    ∃ inner closing after es, rest = inner ++ closing :: after ∧ closing.isClosing = true ∧
      Lists inner es := by
  match rest with
  | [] => exact absurd balanced_nil.1 h
  | token :: rest =>
    by_cases hc : token.isClosing = true
    · exact ⟨[], token, rest, [], rfl, hc, .nil⟩
    by_cases ho : token.isOpening = true
    · -- the parenthesis of this token comes first, and then the one that is looked for
      have hrest : ¬ Closable rest := fun hr => h ((closable_opening ho).append hr)
      obtain ⟨inner, closing, after, es, rfl, hclosing, hinner⟩ := exists_lists hrest
      have hafter : ¬ Closable after := fun ha => h (by
        rw [← List.cons_append, List.append_cons]
        exact (hinner.balanced.wrap ho hclosing).1.append ha)
      obtain ⟨inner', closing', after', es', rfl, hclosing', hinner'⟩ := exists_lists hafter
      exact ⟨token :: inner ++ closing :: inner', closing', after', _, by simp, hclosing',
        .nested ho hinner (Element.collapses_iff.2 rfl) hclosing hinner'⟩
    · have hsingle : Balanced [token] :=
        balanced_singleton (Bool.eq_false_iff.2 ho) (Bool.eq_false_iff.2 hc)
      have hrest : ¬ Closable rest := fun hr => h (hsingle.1.append hr)
      obtain ⟨inner, closing, after, es, rfl, hclosing, hinner⟩ := exists_lists hrest
      obtain ⟨es', hes'⟩ := hinner.exists_cons (mt isOpening_iff.2 ho) (mt isClosing_iff.2 hc)
      exact ⟨token :: inner, closing, after, es', rfl, hclosing, hes'⟩
termination_by rest.length

end Token

/-! ## Reading a list -/

namespace Capture

/-- The innermost list with more elements at its end. -/
def extend (capture : Capture) (es : List Element) (minus : Bool) : Capture :=
  { capture with
    inner := { capture.inner with elements := es.reverse ++ capture.inner.elements }
    minus }

/-- A list is opened in the innermost one. -/
def enter (capture : Capture) (span : Span) : Capture :=
  { inner := { span }, outer := capture.inner :: capture.outer }

theorem extend_extend (capture : Capture) (es es' : List Element) (minus minus' : Bool) :
    (capture.extend es minus).extend es' minus' = capture.extend (es ++ es') minus' := by
  simp [extend]

/-- A token that takes no sign is added as its element. -/
theorem push_eq {capture : Capture} {token : Token}
    (h : capture.minus = true → token.negated? = none) :
    capture.push token = capture.extend (Element.ofToken? token).toList token.isMinus := by
  have hsign : (if capture.minus then token.negated? else none) = none := by
    split
    · rename_i hm
      exact h hm
    · rfl
  unfold push
  rw [hsign]
  cases he : Element.ofToken? token with
  | some e => rfl
  | none =>
    have hminus : token.isMinus = false := by
      unfold Element.ofToken? at he
      unfold Token.isMinus
      split at he <;> simp_all
    rw [hminus]
    rfl

end Capture

namespace Tagging

open Token

variable {t : OperatorTable} {state : Tagging} {capture : Capture} {token : Token}
  {rest : List Token} {es es' : List Element}

/-- The state while a literal list is read. -/
def inList (state : Tagging) (capture : Capture) : Tagging :=
  { state with capture := some capture }

theorem step_inList (ho : token.kind ≠ .punctuation '(') (hc : token.kind ≠ .punctuation ')') :
    step t (state.inList capture) token = .ok (state.inList (capture.push token)) :=
  congrArg Except.ok (readListToken_eq_push ho hc)

theorem step_inList_opening (h : token.isOpening = true) :
    step t (state.inList capture) token = .ok (state.inList (capture.enter token.span)) :=
  congrArg Except.ok (readListToken_opening (isOpening_iff.1 h))

theorem step_inList_closing (h : token.isClosing = true) (span : Span) (minus : Bool) :
    step t (state.inList ((capture.enter span).extend es minus)) token =
      .ok (state.inList (capture.extend [.list (Element.collapse es)] false)) := by
  refine congrArg Except.ok ((readListToken_closing (isClosing_iff.1 h) rfl).trans ?_)
  simp [Capture.extend, Capture.enter, inList, OpenList.push]

/-- The outermost list becomes an item. -/
theorem step_inList_last (h : token.isClosing = true) (hs : state.capture = none) (span : Span)
    (minus : Bool) :
    step t (state.inList (Capture.extend { inner := { span } } es minus)) token =
      .ok (state.push (.list (Element.collapse es) (span.merge token.span))) := by
  refine congrArg Except.ok ((readListToken_last (isClosing_iff.1 h) rfl).trans ?_)
  simp [Capture.extend, inList, push, ← hs]

/-- In any literal list the tokens are read as the elements, unless a minus before them takes the
first. -/
def Takes (t : OperatorTable) (tokens : List Token) (es : List Element) : Prop :=
  ∀ (state : Tagging) (capture : Capture),
    (capture.minus = true → tokens.head?.bind Token.negated? = none) →
      ∃ minus, tokens.foldlM (step t) (state.inList capture) =
        .ok (state.inList (capture.extend es minus))

theorem takes_nil : Takes t [] [] :=
  fun _ capture _ => ⟨capture.minus, rfl⟩

theorem Takes.run (h : Takes t rest es) (state : Tagging) (capture : Capture)
    (hm : capture.minus = false) : ∃ minus, rest.foldlM (step t) (state.inList capture) =
      .ok (state.inList (capture.extend es minus)) :=
  h state capture (by simp [hm])

theorem Takes.cons (h : Takes t rest es) (ho : token.kind ≠ .punctuation '(')
    (hc : token.kind ≠ .punctuation ')')
    (hm : token.isMinus = true → rest.head?.bind Token.negated? = none) :
    Takes t (token :: rest) ((Element.ofToken? token).toList ++ es) := by
  intro state capture hsign
  obtain ⟨minus, hr⟩ :=
    h state (capture.extend (Element.ofToken? token).toList token.isMinus) hm
  refine ⟨minus, ?_⟩
  rw [List.foldlM_cons, step_inList ho hc, Capture.push_eq hsign, ok_bind, hr,
    Capture.extend_extend]

/-- The number comes in the place of the minus, which has been added before it. -/
theorem Takes.signed {minus number : Token} {v value : Literal} (h : Takes t rest es)
    (hm : minus.kind = .operator "-") (hn : number.kind = .literal v none)
    (hv : v.negated? = some value) :
    Takes t (minus :: number :: rest) (.operand (.literal value) :: es) := by
  intro state capture _
  have hminus : capture.push minus = capture.extend [.operand (.identifier "-")] true := by
    rw [Capture.push_eq fun _ => by simp [negated?, hm]]
    simp [Element.ofToken?, isMinus, hm]
  have hnumber : (capture.extend [.operand (.identifier "-")] true).push number =
      capture.extend [.operand (.literal value)] false := by
    simp [Capture.push, Capture.extend, negated?, hn, hv, OpenList.replaceLast]
  obtain ⟨last, hr⟩ := h.run state (capture.extend [.operand (.literal value)] false) rfl
  refine ⟨last, ?_⟩
  rw [List.foldlM_cons, step_inList (by simp [hm]) (by simp [hm]), hminus, ok_bind,
    List.foldlM_cons, step_inList (by simp [hn]) (by simp [hn]), hnumber, ok_bind, hr,
    Capture.extend_extend]
  rfl

/-- A list that is closed becomes an element of the one around it, which is the innermost again. -/
theorem Takes.nested {opening closing : Token} {inner : List Token} (h : Takes t inner es)
    (h' : Takes t rest es') (ho : opening.isOpening = true) (hc : closing.isClosing = true) :
    Takes t (opening :: inner ++ closing :: rest) (.list (Element.collapse es) :: es') := by
  intro state capture _
  obtain ⟨minus, hr⟩ := h.run state (capture.enter opening.span) rfl
  obtain ⟨minus', hr'⟩ := h'.run state (capture.extend [.list (Element.collapse es)] false) rfl
  refine ⟨minus', ?_⟩
  rw [List.cons_append, List.foldlM_cons, step_inList_opening ho, ok_bind, List.foldlM_append, hr,
    ok_bind, List.foldlM_cons, step_inList_closing hc, ok_bind, hr', Capture.extend_extend]
  rfl

end Tagging

namespace Token.Lists

open Tagging

variable {tokens : List Token} {es es' : List Element}

theorem takes (t : OperatorTable) (h : Lists tokens es) : Takes t tokens es := by
  induction h with
  | nil => exact takes_nil
  | @comma token rest es hk _ ih | @literal token rest _ _ es hk _ ih
  | @name token rest _ es hk _ ih =>
    have htakes : Takes t (token :: rest) _ :=
      ih.cons (by simp [hk]) (by simp [hk]) (by simp [isMinus, hk])
    simpa [Element.ofToken?, hk] using htakes
  | @symbol token rest _ es hk hm _ ih =>
    have htakes : Takes t (token :: rest) _ :=
      ih.cons (by simp [hk]) (by simp [hk]) (by simpa [isMinus, hk] using hm)
    simpa [Element.ofToken?, hk] using htakes
  | @mark token rest _ es hk ho hc hcomma _ ih =>
    have htakes : Takes t (token :: rest) _ :=
      ih.cons (by simp [hk, ho]) (by simp [hk, hc]) (by simp [isMinus, hk])
    simpa [Element.ofToken?, hk, hcomma] using htakes
  | signed hm hn hv _ ih => exact ih.signed hm hn hv
  | nested ho _ hl hc _ ih ih' =>
    rw [Element.collapses_iff.1 hl]
    exact ih.nested ih' ho hc

/-- Tokens have one reading, since one comes out when they are read. -/
theorem unique (h : Lists tokens es) (h' : Lists tokens es') : es = es' := by
  obtain ⟨minus, hr⟩ := (h.takes .standard).run .initial default rfl
  obtain ⟨minus', hr'⟩ := (h'.takes .standard).run .initial default rfl
  rw [hr] at hr'
  simpa [Tagging.inList, Capture.extend] using (congrArg (Option.map fun c => c.inner.elements)
    (congrArg Tagging.capture (Except.ok.inj hr')))

end Token.Lists

/-! ## After `IN` -/

namespace Tagging

variable {t : OperatorTable} {state state' : Tagging} {token : Token} {span : Span}

theorem capture_of_readToken (hc : state.capture = none)
    (h : readToken t state token = .ok state') (hi : state'.items ≠ state.items) :
    state'.capture = none := by
  unfold readToken at h
  split at h
  · cases h
    exact hc
  · split at h
    · cases h
      exact absurd rfl hi
    · cases h
      exact hc
  · unfold readClosing at h
    split at h <;> cases h
    exact hc
  all_goals
    cases h
    exact (items_readWord _ _ _).1.trans hc

/-- Where a token adds an operator, no literal list is open. -/
theorem capture_eq_none {op : Operator} (h : step t state token = .ok state')
    (hi : state'.items = .operator op span :: state.items) : state'.capture = none := by
  unfold step at h
  split at h
  · -- in a literal list an item is added only by its end, and is the list
    cases h
    unfold readListToken at hi
    split at hi
    · simp at hi
    · dsimp only at hi
      split at hi <;> simp [push] at hi
    · simp at hi
  · rename_i hc
    exact capture_of_readToken hc h (by simp [hi])

theorem step_afterIn {opening : Token} (hi : state.items.head? = some (.operator .isIn span))
    (hc : state.capture = none) (ho : opening.isOpening = true) :
    step t state opening = .ok (state.inList { inner := { span := opening.span } }) := by
  have hafter : state.afterIn = true := by
    obtain ⟨rest, hr⟩ := List.head?_eq_some_iff.1 hi
    rw [afterIn, hr]
    rfl
  unfold step
  rw [hc]
  unfold readToken
  rw [Token.isOpening_iff.1 ho]
  simp [hafter, inList]

end Tagging

namespace Item

open Token

variable {t : OperatorTable} {length : Nat} {before rest : List Token} {token opening : Token}
  {items : List Item} {state state' : Tagging} {span : Span}

/-- If in a clause that is accepted a token is read as `IN` and a parenthesis follows directly, what
stands up to the partner of the parenthesis has just one reading, and is one item, the list of it.
After the partner the state is the same, but for this item. No list in it, at any depth, has a list
as its only element. -/
theorem list_after_isIn (h : ofTokens t length (before ++ token :: opening :: rest) = .ok items)
    (hb : before.foldlM (Tagging.step t) .initial = .ok state)
    (ht : Tagging.step t state token = .ok state')
    (hi : state'.items = .operator .isIn span :: state.items) (ho : opening.isOpening = true) :
    ∃ inner closing after es listed, rest = inner ++ closing :: after ∧ Token.Balanced inner ∧
      closing.isClosing = true ∧ Lists inner es ∧ (∀ es', Lists inner es' → es' = es) ∧
      Element.Collapses es listed ∧
      (before ++ token :: opening :: inner ++ [closing]).foldlM (Tagging.step t) .initial =
        .ok (state'.push (.list listed (opening.span.merge closing.span))) ∧
      state.items.reverse ++ [.operator .isIn span,
        .list listed (opening.span.merge closing.span)] <+: items ∧
      (Element.list listed).Reduced := by
  have hbalanced : Token.Balanced (before ++ token :: opening :: rest) := by
    rcases ofTokens_or_unmatched t length (before ++ token :: opening :: rest) with
      ⟨-, hall⟩ | ⟨span, herr, -⟩
    · exact hall
    · rw [h] at herr
      cases herr
  rw [List.append_cons] at hbalanced
  obtain ⟨inner, closing, after, es, rfl, hc, hes⟩ := exists_lists (hbalanced.not_closable ho)
  have hnone := Tagging.capture_eq_none ht hi
  obtain ⟨minus, hinner⟩ := (hes.takes t).run state' { inner := { span := opening.span } } rfl
  have hrun : (before ++ token :: opening :: inner ++ [closing]).foldlM (Tagging.step t) .initial =
      .ok (state'.push (.list (Element.collapse es) (opening.span.merge closing.span))) := by
    rw [List.append_assoc, List.foldlM_append, hb, ok_bind, List.cons_append, List.foldlM_cons, ht,
      ok_bind, List.cons_append, List.foldlM_cons, Tagging.step_afterIn (by rw [hi]; rfl) hnone ho,
      ok_bind, List.foldlM_append, hinner, ok_bind, List.foldlM_cons,
      Tagging.step_inList_last hc hnone]
    rfl
  have hall : ofTokens t length (before ++ token :: opening :: inner ++ [closing] ++ after) =
      .ok items := by simpa using h
  have hprefix := prefix_of_ofTokens hall hrun
  have hlisted : Element.Collapses es (Element.collapse es) := Element.collapses_iff.2 rfl
  refine ⟨inner, closing, after, es, _, rfl, hes.balanced, hc, hes, fun es' h' => h'.unique hes,
    hlisted, hrun, ?_, hlisted.reduced hes.reduced⟩
  simpa [Tagging.push, hi] using hprefix

/-- In `x IN ((a, -3, ((AND)))) OR y` the minus is a sign and the `AND` a name. The list has three
elements, since it stands in more parentheses than it needs, and so has its last element. -/
theorem list_after_isIn_nested :
    ∃ inner closing after es,
      [⟨.punctuation '(', ⟨6, 7⟩⟩, ⟨.identifier "a", ⟨7, 8⟩⟩, ⟨.punctuation ',', ⟨8, 9⟩⟩,
        ⟨.operator "-", ⟨10, 11⟩⟩, ⟨.literal (.integer 3) none, ⟨11, 12⟩⟩,
        ⟨.punctuation ',', ⟨12, 13⟩⟩, ⟨.punctuation '(', ⟨14, 15⟩⟩, ⟨.punctuation '(', ⟨15, 16⟩⟩,
        ⟨.identifier "AND", ⟨16, 19⟩⟩, ⟨.punctuation ')', ⟨19, 20⟩⟩, ⟨.punctuation ')', ⟨20, 21⟩⟩,
        ⟨.punctuation ')', ⟨21, 22⟩⟩, ⟨.punctuation ')', ⟨22, 23⟩⟩, ⟨.identifier "OR", ⟨24, 26⟩⟩,
        ⟨.identifier "y", ⟨27, 28⟩⟩] = inner ++ closing :: after ∧
      Token.Balanced inner ∧ closing.isClosing = true ∧ Lists inner es ∧
      Element.Collapses es [.operand (.identifier "a"), .operand (.literal (.integer (-3))),
        .list [.operand (.identifier "AND")]] ∧
      (⟨5, 6⟩ : Span).merge closing.span = ⟨5, 23⟩ ∧
      (Element.list [.operand (.identifier "a"), .operand (.literal (.integer (-3))),
        .list [.operand (.identifier "AND")]]).Reduced := by
  have h : ofTokens .standard 28
      [⟨.identifier "x", ⟨0, 1⟩⟩, ⟨.identifier "IN", ⟨2, 4⟩⟩, ⟨.punctuation '(', ⟨5, 6⟩⟩,
        ⟨.punctuation '(', ⟨6, 7⟩⟩, ⟨.identifier "a", ⟨7, 8⟩⟩, ⟨.punctuation ',', ⟨8, 9⟩⟩,
        ⟨.operator "-", ⟨10, 11⟩⟩, ⟨.literal (.integer 3) none, ⟨11, 12⟩⟩,
        ⟨.punctuation ',', ⟨12, 13⟩⟩, ⟨.punctuation '(', ⟨14, 15⟩⟩, ⟨.punctuation '(', ⟨15, 16⟩⟩,
        ⟨.identifier "AND", ⟨16, 19⟩⟩, ⟨.punctuation ')', ⟨19, 20⟩⟩, ⟨.punctuation ')', ⟨20, 21⟩⟩,
        ⟨.punctuation ')', ⟨21, 22⟩⟩, ⟨.punctuation ')', ⟨22, 23⟩⟩, ⟨.identifier "OR", ⟨24, 26⟩⟩,
        ⟨.identifier "y", ⟨27, 28⟩⟩] =
      .ok [.opening ⟨0, 0⟩, .operand (.identifier "x") ⟨0, 1⟩, .operator .isIn ⟨2, 4⟩,
        .list [.operand (.identifier "a"), .operand (.literal (.integer (-3))),
          .list [.operand (.identifier "AND")]] ⟨5, 23⟩,
        .operator .or ⟨24, 26⟩, .operand (.identifier "y") ⟨27, 28⟩, .closing ⟨28, 28⟩] := rfl
  obtain ⟨inner, closing, after, es, listed, hrest, hb, hc, hes, -, hlisted, -, ⟨more, hmore⟩,
      hreduced⟩ :=
    @list_after_isIn .standard 28 [⟨.identifier "x", ⟨0, 1⟩⟩] _ ⟨.identifier "IN", ⟨2, 4⟩⟩
      ⟨.punctuation '(', ⟨5, 6⟩⟩ _ _ _ _ h rfl rfl rfl rfl
  have hitems := (List.cons.inj (List.cons.inj (List.cons.inj hmore).2).2).2
  obtain ⟨rfl, hspan⟩ := Item.list.inj (List.cons.inj hitems).1
  exact ⟨inner, closing, after, es, hrest, hb, hc, hes, hlisted, hspan, hreduced⟩

end Item

end WhereClause
