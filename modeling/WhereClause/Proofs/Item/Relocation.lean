import WhereClause.Proofs.Grammar
import WhereClause.Proofs.Item.Balance

/-!
# Tokens at another place

The items of tokens depend neither on where the tokens stand nor on what stands around the
parentheses in which they are read. So if the tokens of a clause are read between parentheses in
another clause, they are tagged in the same way as before, apart from their spans; and the grammar
does not look at spans.
-/

namespace WhereClause

/-! ## Items without their places -/

/-- The item at another place. -/
def Item.place (span : Span) : Item → Item
  | .opening _ => .opening span
  | .closing _ => .closing span
  | .operand x _ => .operand x span
  | .operator op _ => .operator op span
  | .separator _ => .separator span
  | .list elements _ => .list elements span

/-- Items that only differ in their places. -/
def Item.Alike (u w : List Item) : Prop :=
  u.map (Item.place {}) = w.map (Item.place {})

theorem Item.exists_place {x y : Item} (h : x.place {} = y.place {}) :
    ∃ span, x = y.place span := by
  cases x with
  | opening span | closing span | operand _ span | operator _ span | separator span | list _ span =>
    refine ⟨span, ?_⟩
    cases y <;> simp_all [Item.place]

namespace Item.Alike

variable {u u' w : List Item} {x : Item}

theorem singleton_inv (h : Item.Alike u [x]) : ∃ span, u = [x.place span] := by
  obtain ⟨y, rfl, hy⟩ := List.map_eq_singleton_iff.1 h
  obtain ⟨span, rfl⟩ := exists_place hy
  exact ⟨span, rfl⟩

theorem cons_inv (h : Item.Alike u (x :: w)) :
    ∃ span w', u = x.place span :: w' ∧ Item.Alike w' w := by
  obtain ⟨y, w', rfl, hy, hw⟩ := List.map_eq_cons_iff.1 h
  obtain ⟨span, rfl⟩ := exists_place hy
  exact ⟨span, w', rfl, hw⟩

theorem append_inv (h : Item.Alike u (u' ++ w)) :
    ∃ v w', u = v ++ w' ∧ Item.Alike v u' ∧ Item.Alike w' w := by
  rw [Item.Alike, List.map_append] at h
  obtain ⟨v, w', rfl, hv, hw⟩ := List.map_eq_append_iff.1 h
  exact ⟨v, w', rfl, hv, hw⟩

end Item.Alike

/-- The grammar does not look at places. -/
theorem Grammar.Derives.of_alike {t : OperatorTable} {c : Category} {w : List Item} {e : Expr}
    (h : Derives t c w e) {items : List Item} (ha : Item.Alike items w) : Derives t c items e := by
  induction h generalizing items with
  | operand =>
    obtain ⟨span, rfl⟩ := ha.singleton_inv
    exact .operand
  | list =>
    obtain ⟨span, rfl⟩ := ha.singleton_inv
    exact .list
  | empty =>
    obtain ⟨start, rest, rfl, hrest⟩ := ha.cons_inv
    obtain ⟨stop, rfl⟩ := hrest.singleton_inv
    exact .empty
  | group _ ih =>
    obtain ⟨front, last, rfl, hfront, hlast⟩ := ha.append_inv
    obtain ⟨start, body, rfl, hbody⟩ := hfront.cons_inv
    obtain ⟨stop, rfl⟩ := hlast.singleton_inv
    exact .group (ih hbody)
  | bare _ ih => exact .bare (ih ha)
  | unary hm hp _ ih =>
    obtain ⟨span, rest, rfl, hrest⟩ := ha.cons_inv
    exact .unary hm hp (ih hrest)
  | single _ ih => exact .single (ih ha)
  | binary hm har _ _ he ihx ihy =>
    obtain ⟨u, rest, rfl, hu, hrest⟩ := ha.append_inv
    obtain ⟨span, v, rfl, hv⟩ := hrest.cons_inv
    exact .binary hm har (ihx hu) (ihy hv) he
  | between hm _ _ _ ihx ihlow ihhigh =>
    obtain ⟨front, rest, rfl, hfront, hrest⟩ := ha.append_inv
    obtain ⟨stop, v, rfl, hv⟩ := hrest.cons_inv
    obtain ⟨u, low, rfl, hu, hlow⟩ := hfront.append_inv
    obtain ⟨span, w, rfl, hw⟩ := hlow.cons_inv
    exact .between hm (ihx hu) (ihlow hw) (ihhigh hv)

/-! ## States without their places -/

/-- The token without its place. -/
def Token.unplaced (token : Token) : Token :=
  { token with span := {} }

/-- The list without its place. -/
def OpenList.unplaced (list : OpenList) : OpenList :=
  { list with span := {} }

/-- The lists without their places. -/
def Capture.unplaced (capture : Capture) : Capture :=
  { capture with
    inner := capture.inner.unplaced
    outer := capture.outer.map OpenList.unplaced }

theorem Capture.unplaced_push (capture : Capture) (token : Token) :
    (capture.push token).unplaced = capture.unplaced.push token.unplaced := by
  have hm : (if capture.unplaced.minus = true then token.unplaced.negated? else none) =
      if capture.minus = true then token.negated? else none := rfl
  have he : Element.ofToken? token.unplaced = Element.ofToken? token := rfl
  unfold Capture.push
  rw [hm, he]
  split <;> rfl

namespace Tagging

variable {t : OperatorTable} {state state' : Tagging}

/-- The state without the places of anything in it. -/
def unplaced (state : Tagging) : Tagging :=
  { state with
    items := state.items.map (Item.place {})
    groups := state.groups.map fun group => { group with span := {} }
    capture := state.capture.map Capture.unplaced }

theorem lacksOperand_unplaced (state : Tagging) :
    state.unplaced.lacksOperand = state.lacksOperand := by
  unfold lacksOperand unplaced
  match state.items with
  | [] => rfl
  | item :: _ => cases item <;> rfl

theorem afterIn_unplaced (state : Tagging) : state.unplaced.afterIn = state.afterIn := by
  unfold afterIn unplaced
  match state.items with
  | [] => rfl
  | item :: _ => cases item <;> rfl

theorem unplaced_readWord (state : Tagging) (word : String) (span : Span) :
    (readWord t state word span).unplaced = readWord t state.unplaced word {} := by
  have hwaiting : state.unplaced.waiting = state.waiting := rfl
  unfold readWord operatorAt?
  rw [lacksOperand_unplaced, hwaiting]
  split
  · rfl
  · split <;> rfl

theorem unplaced_readListToken (state : Tagging) (capture : Capture) (token : Token) :
    (readListToken state capture token).unplaced =
      readListToken state.unplaced capture.unplaced token.unplaced := by
  unfold readListToken
  simp only [Token.unplaced]
  split
  · rfl
  · obtain ⟨inner, outer, minus⟩ := capture
    cases outer <;> rfl
  · rw [← Token.unplaced, ← Capture.unplaced_push]
    rfl

/-- Places have no influence on what a step gives, apart from places. -/
theorem unplaced_step (state : Tagging) (token : Token) :
    (step t state token).toOption.map unplaced =
      (step t state.unplaced token.unplaced).toOption := by
  obtain ⟨items, groups, waiting, capture⟩ := state
  cases capture with
  | some capture => exact congrArg some (unplaced_readListToken _ capture token)
  | none =>
    have hword (word : String) :
        some (readWord t ⟨items, groups, waiting, none⟩ word token.span).unplaced =
          some (readWord t (unplaced ⟨items, groups, waiting, none⟩) word {}) :=
      congrArg some (unplaced_readWord _ word token.span)
    have hopen := afterIn_unplaced ⟨items, groups, waiting, none⟩
    show (readToken t _ token).toOption.map unplaced = (readToken t _ token.unplaced).toOption
    unfold readToken
    simp only [Token.unplaced]
    split
    · rfl
    · rw [hopen]
      split <;> rfl
    · cases groups <;> rfl
    all_goals exact hword _

theorem unplaced_foldlM (tokens : List Token) (state : Tagging) :
    (tokens.foldlM (step t) state).toOption.map unplaced =
      ((tokens.map Token.unplaced).foldlM (step t) state.unplaced).toOption := by
  induction tokens generalizing state with
  | nil => rfl
  | cons token rest ih =>
    have hstep := unplaced_step (t := t) state token
    rw [List.map_cons, List.foldlM_cons, List.foldlM_cons]
    cases hs : step t state token with
    | error e =>
      rw [hs] at hstep
      cases hu : step t state.unplaced token.unplaced with
      | error e' => rfl
      | ok next => rw [hu] at hstep; cases hstep
    | ok next =>
      rw [hs] at hstep
      cases hu : step t state.unplaced token.unplaced with
      | error e' => rw [hu] at hstep; cases hstep
      | ok next' =>
        rw [hu] at hstep
        obtain rfl : next.unplaced = next' := Option.some.inj hstep
        exact ih next

/-- Tokens of the same kinds are read alike from states that only differ in places. -/
theorem exists_foldlM_of_unplaced {other : Tagging} {tokens tokens' : List Token}
    (hs : other.unplaced = state.unplaced) (ht : tokens'.map Token.kind = tokens.map Token.kind)
    (h : tokens.foldlM (step t) state = .ok state') :
    ∃ other', tokens'.foldlM (step t) other = .ok other' ∧
      other'.unplaced = state'.unplaced := by
  have hk (ts : List Token) : ts.map Token.unplaced = (ts.map Token.kind).map (⟨·, {}⟩) := by
    rw [List.map_map]
    rfl
  have hother := unplaced_foldlM (t := t) tokens' other
  rw [hs, hk tokens', ht, ← hk, ← unplaced_foldlM, h] at hother
  obtain ⟨other', ho, hu⟩ := Option.map_eq_some_iff.1 hother
  cases hf : tokens'.foldlM (step t) other with
  | error e => rw [hf] at ho; cases ho
  | ok found =>
    rw [hf] at ho
    exact ⟨other', congrArg Except.ok (Option.some.inj ho), hu⟩

/-! ## Parentheses around a state -/

/-- The state inside of another one, of which the items and the parentheses come first. -/
def within (outer state : Tagging) : Tagging :=
  { state with items := state.items ++ outer.items, groups := state.groups ++ outer.groups }

variable {outer : Tagging} {token : Token}

theorem lacksOperand_within (outer : Tagging) (hne : state.items ≠ []) :
    (within outer state).lacksOperand = state.lacksOperand := by
  obtain ⟨items, groups, waiting, capture⟩ := state
  cases items with
  | nil => exact absurd rfl hne
  | cons item items => cases item <;> rfl

theorem afterIn_within (outer : Tagging) (hne : state.items ≠ []) :
    (within outer state).afterIn = state.afterIn := by
  obtain ⟨items, groups, waiting, capture⟩ := state
  cases items with
  | nil => exact absurd rfl hne
  | cons item items => cases item <;> rfl

theorem within_readWord (outer : Tagging) (hne : state.items ≠ []) (word : String) (span : Span) :
    readWord t (within outer state) word span = within outer (readWord t state word span) := by
  have hwaiting : (within outer state).waiting = state.waiting := rfl
  unfold readWord operatorAt?
  rw [lacksOperand_within outer hne, hwaiting]
  split
  · rfl
  · split <;> rfl

/-- A step that is possible in a state is possible inside of another one. -/
theorem step_within (outer : Tagging) (hne : state.items ≠ [])
    (h : step t state token = .ok state') :
    step t (within outer state) token = .ok (within outer state') := by
  obtain ⟨items, groups, waiting, capture⟩ := state
  cases capture with
  | some capture =>
    cases h
    refine congrArg Except.ok ?_
    unfold readListToken
    split
    · rfl
    · obtain ⟨inner, lists, minus⟩ := capture
      cases lists <;> rfl
    · rfl
  | none =>
    have hword (word : String) : readWord t (within outer ⟨items, groups, waiting, none⟩) word
        token.span = within outer (readWord t ⟨items, groups, waiting, none⟩ word token.span) :=
      within_readWord outer hne word token.span
    have hopen : (within outer ⟨items, groups, waiting, none⟩).afterIn = _ :=
      afterIn_within outer hne
    change readToken t _ token = .ok state' at h
    change readToken t _ token = .ok _
    unfold readToken at h ⊢
    split at h
    · cases h
      rfl
    · rw [hopen]
      split at h
      · rename_i ha
        cases h
        exact if_pos ha
      · rename_i ha
        cases h
        exact if_neg ha
    · cases groups with
      | nil => cases h
      | cons group groups =>
        cases h
        rfl
    all_goals
      cases h
      exact congrArg Except.ok (hword _)

theorem items_ne_nil_of_step (hne : state.items ≠ []) (h : step t state token = .ok state') :
    state'.items ≠ [] := by
  cases move_step h with
  | capture hi => rwa [hi]
  | leaf hi | opening hi | closing hi => simp [hi]

theorem foldlM_within (outer : Tagging) {tokens : List Token} (hne : state.items ≠ [])
    (h : tokens.foldlM (step t) state = .ok state') :
    tokens.foldlM (step t) (within outer state) = .ok (within outer state') := by
  induction tokens generalizing state with
  | nil =>
    cases h
    rfl
  | cons token rest ih =>
    obtain ⟨next, hn, hr⟩ := foldlM_cons_eq_ok_iff.1 h
    exact foldlM_cons_eq_ok_iff.2
      ⟨_, step_within outer hne hn, ih (items_ne_nil_of_step hne hn) hr⟩

end Tagging

end WhereClause
