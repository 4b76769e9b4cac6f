import WhereClause.Proofs.Item.Captured

/-!
# Tokens of items

Each item of a clause stands for one token, except for a literal list, which stands for the tokens
from its opening to its closing parenthesis. The judgement `Item.Origin` says which tokens make
which items, apart from the state that is kept while they are read: what a token is depends on the
item before it only as far as an opening parenthesis is concerned, and a minus.

So a literal list stands directly after an `IN`, and an opening parenthesis never does.
-/

namespace WhereClause

/-! ## One token -/

namespace Token

/-- The token is no parenthesis, and its word names the operator. -/
def Names (t : OperatorTable) (op : Operator) (token : Token) : Prop :=
  token.isOpening = false ∧ token.isClosing = false ∧
    ∃ word, token.word? = some word ∧ t.get? word = some op

/-- The token is a value, or a word that is neither a parenthesis nor an operator. -/
def IsOperand (t : OperatorTable) (token : Token) : Prop :=
  token.isOpening = false ∧ token.isClosing = false ∧
    ∀ word, token.word? = some word → t.get? word = none

/-- No word names the prefix minus, which is a minus by its place. -/
theorem not_names_negate {t : OperatorTable} {token : Token} : ¬ token.Names t .negate := by
  rintro ⟨-, -, word, -, hg⟩
  exact t.negate_not_mem (List.mem_of_find?_eq_some hg)

/-- The items that a token may be after others. -/
inductive Becomes (t : OperatorTable) (ws : List Item) (token : Token) : Item → Prop
  | literal {value : Literal} {quote : Option Char} : token.kind = .literal value quote →
    Becomes t ws token (.operand (.literal value) token.span)
  | name {word : String} : token.IsOperand t → token.word? = some word →
    Becomes t ws token (.operand (.identifier word) token.span)
  | operator {op : Operator} : token.Names t op → Becomes t ws token (.operator op token.span)
  /-- A minus where an operand is to follow. -/
  | negate : token.Names t .subtract → Item.lacksOperand ws = true →
    Becomes t ws token (.operator .negate token.span)
  | separator : token.isOpening = false → token.isClosing = false →
    Becomes t ws token (.separator token.span)
  | opening : token.isOpening = true → (∀ span, ws.getLast? ≠ some (.operator .isIn span)) →
    Becomes t ws token (.opening token.span)
  | closing : token.isClosing = true → Becomes t ws token (.closing token.span)

end Token

/-- The items that have been read when these tokens have been read, none of a literal list being
left over. -/
inductive Item.Origin (t : OperatorTable) : List Token → List Item → Prop
  | start : Origin t [] [.opening (.point 0)]
  | token {tokens : List Token} {ws : List Item} {token : Token} {item : Item} :
    Origin t tokens ws → token.Becomes t ws item → Origin t (tokens ++ [token]) (ws ++ [item])
  | list {tokens inner : List Token} {ws : List Item} {opening closing : Token}
    {es : List Element} {span : Span} :
    Origin t tokens ws → ws.getLast? = some (.operator .isIn span) → opening.isOpening = true →
      Token.Lists inner es → closing.isClosing = true →
      Origin t (tokens ++ (opening :: inner ++ [closing]))
        (ws ++ [.list (Element.collapse es) (opening.span.merge closing.span)])

namespace Tagging

open Token

variable {t : OperatorTable} {state state' : Tagging} {token : Token}

theorem afterIn_iff :
    state.afterIn = true ↔ ∃ span, state.items.head? = some (.operator .isIn span) := by
  unfold afterIn
  split
  · rename_i op span rest hi
    simp [hi]
  · rename_i hi
    simp only [Bool.false_eq_true, false_iff, not_exists]
    intro span hs
    obtain ⟨rest, hr⟩ := List.head?_eq_some_iff.1 hs
    exact hi _ _ _ hr

theorem becomes_readWord {word : String} (hw : token.word? = some word)
    (ho : token.isOpening = false) (hc : token.isClosing = false) :
    ∃ item, (readWord t state word token.span).items = item :: state.items ∧
      token.Becomes t state.items.reverse item := by
  refine ⟨_, (items_readWord state word token.span).2, ?_⟩
  split
  · exact .separator ho hc
  · unfold Item.ofWord
    cases hg : t.get? word with
    | none =>
      refine .name ⟨ho, hc, fun other hother => ?_⟩ hw
      cases hw.symm.trans hother
      exact hg
    | some op =>
      simp only
      split
      · rename_i hs
        exact .negate ⟨ho, hc, word, hw, hs.1 ▸ hg⟩ hs.2
      · exact .operator ⟨ho, hc, word, hw, hg⟩

/-- A token outside of the literal lists becomes an item, unless it opens a list after an `IN`. -/
theorem exists_becomes (hc : state.capture = none) (h : step t state token = .ok state')
    (hl : ¬ (token.isOpening = true ∧ state.afterIn = true)) :
    ∃ item, state'.items = item :: state.items ∧ state'.capture = none ∧
      token.Becomes t state.items.reverse item := by
  have hr : readToken t state token = .ok state' := by
    unfold step at h
    rwa [hc] at h
  suffices ∃ item, state'.items = item :: state.items ∧
      token.Becomes t state.items.reverse item by
    obtain ⟨item, hi, hb⟩ := this
    exact ⟨item, hi, capture_of_readToken hc hr (by simp [hi]), hb⟩
  by_cases ho : token.isOpening = true
  · have hafter : state.afterIn = false := Bool.eq_false_iff.2 fun ha => hl ⟨ho, ha⟩
    unfold readToken at hr
    simp only [isOpening_iff.1 ho, hafter, Bool.false_eq_true, if_false] at hr
    cases hr
    refine ⟨_, rfl, .opening ho fun span hs => ?_⟩
    rw [List.getLast?_reverse] at hs
    exact hl ⟨ho, afterIn_iff.2 ⟨span, hs⟩⟩
  by_cases hclose : token.isClosing = true
  · unfold readToken at hr
    simp only [isClosing_iff.1 hclose] at hr
    unfold readClosing at hr
    split at hr
    · cases hr
    · cases hr
      exact ⟨_, rfl, .closing hclose⟩
  have ho : token.isOpening = false := Bool.eq_false_iff.2 ho
  have hclose : token.isClosing = false := Bool.eq_false_iff.2 hclose
  cases hw : token.word? with
  | some word =>
    rw [readToken_eq_readWord hw ho hclose] at hr
    cases hr
    exact becomes_readWord hw ho hclose
  | none =>
    unfold readToken at hr
    unfold word? at hw
    cases hk : token.kind with
    | literal value quote =>
      rw [hk] at hr
      cases hr
      exact ⟨_, rfl, .literal hk⟩
    | _ =>
      rw [hk] at hw
      cases hw

/-- Tokens that are read to the end of all literal lists. -/
theorem origin_of_foldlM {state : Tagging} {tokens before : List Token}
    (hs : Item.Origin t before state.items.reverse) (hc : state.capture = none)
    (hb : Balanced (before ++ tokens)) (h : tokens.foldlM (step t) state = .ok state') :
    Item.Origin t (before ++ tokens) state'.items.reverse := by
  match tokens with
  | [] =>
    cases h
    rwa [List.append_nil]
  | token :: rest =>
    by_cases hl : token.isOpening = true ∧ state.afterIn = true
    · -- the literal list is read as a whole, and then what comes after it
      obtain ⟨span, hspan⟩ := afterIn_iff.1 hl.2
      obtain ⟨inner, closing, after, es, rfl, hclosing, hes⟩ :=
        exists_lists (hb.not_closable hl.1)
      obtain ⟨minus, hinner⟩ := (hes.takes t).run state { inner := { span := token.span } } rfl
      have hafter : after.foldlM (step t)
          (state.push (.list (Element.collapse es) (token.span.merge closing.span))) =
            .ok state' := by
        rwa [List.foldlM_cons, step_afterIn hspan hc hl.1, ok_bind, List.foldlM_append, hinner,
          ok_bind, List.foldlM_cons, step_inList_last hclosing hc, ok_bind] at h
      have hlist : Item.Origin t (before ++ (token :: inner ++ [closing]))
          (state.push
            (.list (Element.collapse es) (token.span.merge closing.span))).items.reverse := by
        rw [push, List.reverse_cons]
        exact .list hs (by rwa [List.getLast?_reverse]) hl.1 hes hclosing
      have hsplit : before ++ token :: (inner ++ closing :: after) =
          before ++ (token :: inner ++ [closing]) ++ after := by simp
      rw [hsplit] at hb ⊢
      exact origin_of_foldlM hlist hc hb hafter
    · obtain ⟨next, hn, hr⟩ := foldlM_cons_eq_ok_iff.1 h
      obtain ⟨item, hi, hc', hbecomes⟩ := exists_becomes hc hn hl
      rw [List.append_cons] at hb ⊢
      refine origin_of_foldlM ?_ hc' hb hr
      rw [hi, List.reverse_cons]
      exact .token hs hbecomes
termination_by tokens.length

end Tagging

/-! ## All tokens -/

namespace Item

variable {t : OperatorTable} {length : Nat} {tokens : List Token} {items ws : List Item}

/-- The items of a clause come from its tokens, apart from the item that ends the clause. -/
theorem exists_origin_of_ofTokens (h : ofTokens t length tokens = .ok items) :
    ∃ ws, items = ws ++ [.closing (.point length)] ∧ Origin t tokens ws := by
  have hb : Token.Balanced tokens := by
    rcases ofTokens_or_unmatched t length tokens with ⟨-, hb⟩ | ⟨span, herr, -⟩
    · exact hb
    · rw [h] at herr
      cases herr
  obtain ⟨state, hs, rfl⟩ := exists_state_of_ofTokens h
  have horigin : Origin t ([] ++ tokens) state.items.reverse :=
    Tagging.origin_of_foldlM .start rfl hb hs
  exact ⟨_, rfl, horigin⟩

/-- Whether an operand ends with the item. -/
def endsOperand : Item → Bool
  | .operand _ _ => true
  | .list _ _ => true
  | .closing _ => true
  | _ => false

theorem endsOperand_of_getLast? {item : Item} (h : ws.getLast? = some item) :
    item.endsOperand = !lacksOperand ws := by
  unfold lacksOperand
  rw [h]
  cases item <;> rfl

/-- What items may stand side by side: a literal list stands after an `IN` and an opening
parenthesis does not, and a minus after an operand is no prefix. -/
structure Adjoins (earlier later : Item) : Prop where
  list : ∀ es span, later = .list es span → ∃ span', earlier = .operator .isIn span'
  opening : ∀ span, later = .opening span → ∀ span', earlier ≠ .operator .isIn span'
  minus : ∀ span, later = .operator .negate span → earlier.endsOperand = false

theorem Origin.chain (h : Origin t tokens ws) : ws.IsChain Adjoins := by
  induction h with
  | start => exact .singleton _
  | @token tokens ws token item _ hb ih =>
    refine ih.append (.singleton _) fun earlier he later hl => ?_
    rw [List.head?_cons, Option.mem_some_iff] at hl
    subst hl
    cases hb with
    | opening _ hin =>
      refine ⟨by simp, fun span _ span' heq => hin span' ?_, by simp⟩
      rw [← heq]
      exact he
    | negate _ hlack =>
      refine ⟨by simp, by simp, fun _ _ => ?_⟩
      rw [endsOperand_of_getLast? he, hlack]
      rfl
    | @operator op hn =>
      refine ⟨by simp, by simp, fun span heq => ?_⟩
      obtain ⟨rfl, -⟩ := Item.operator.inj heq
      exact absurd hn Token.not_names_negate
    | _ => exact ⟨by simp, by simp, by simp⟩
  | @list tokens inner ws opening closing es span _ hin _ _ _ ih =>
    refine ih.append (.singleton _) fun earlier he later hl => ?_
    rw [List.head?_cons, Option.mem_some_iff] at hl
    subst hl
    refine ⟨fun _ _ _ => ⟨span, ?_⟩, by simp, by simp⟩
    exact Option.some.inj (he.symm.trans hin)

end Item

end WhereClause
