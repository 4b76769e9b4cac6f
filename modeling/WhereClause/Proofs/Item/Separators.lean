import Mathlib.Data.List.Infix
import WhereClause.Proofs.Item.Balance
import WhereClause.Proofs.Item.Pairing

/-!
# Which `AND` belongs to a `BETWEEN`

An `AND` is the separator of a `BETWEEN` if, of the items directly in its own parentheses, more are
`BETWEEN`s than separators. Parentheses inside of these and literal lists play no part.

While tokens are read a number is kept for each open parenthesis. The invariant is that it is the
number of `BETWEEN`s without a separator among the items directly in these parentheses, and that
these items never have more separators than `BETWEEN`s.
-/

namespace WhereClause

/-! ## Items of a group -/

namespace Item

/-- Whether the item is a `BETWEEN`. -/
def isBetween : Item → Bool
  | .operator op _ => op = .between
  | _ => false

/-- Whether the item is the `AND` of a `BETWEEN`. -/
def isSeparator : Item → Bool
  | .separator _ => true
  | _ => false

/-- The items outside of all parentheses, if `depth` of them are open at the beginning. -/
def directAt (depth : Nat) : List Item → List Item
  | [] => []
  | .opening _ :: rest => directAt (depth + 1) rest
  | .closing _ :: rest => directAt (depth - 1) rest
  | item :: rest => if depth = 0 then item :: directAt depth rest else directAt depth rest

/-- The items of a group that stand in no parentheses inside of it. -/
def direct (group : List Item) : List Item :=
  directAt 0 group

/-- Directly in the group more `BETWEEN`s than separators have come. -/
def Awaiting (group : List Item) : Prop :=
  (direct group).countP isSeparator < (direct group).countP isBetween

instance (group : List Item) : Decidable (Awaiting group) :=
  inferInstanceAs (Decidable (_ < _))

theorem directAt_leaf {item : Item} (hl : item.isLeaf) (depth : Nat) (rest : List Item) :
    directAt depth (item :: rest) =
      (if depth = 0 then [item] else []) ++ directAt depth rest := by
  cases item with
  | opening | closing => cases hl
  | operand | operator | separator | list => by_cases hd : depth = 0 <;> simp [directAt, hd]

/-- Balanced items in parentheses are not outside of them. -/
theorem Balanced.directAt_succ {u : List Item} (hu : Balanced u) (depth : Nat) (w : List Item) :
    directAt (depth + 1) (u ++ w) = directAt (depth + 1) w := by
  induction hu generalizing depth w with
  | nil => rfl
  | leaf hl _ ih =>
    rw [List.cons_append, directAt_leaf hl, if_neg (Nat.succ_ne_zero depth), List.nil_append, ih]
  | @group start stop u v _ _ ihu ihv =>
    rw [List.append_assoc, List.cons_append, List.cons_append, directAt, ihu, directAt,
      Nat.add_sub_cancel, ihv]

theorem Balanced.direct_group {u : List Item} (hu : Balanced u) (start stop : Span)
    (w : List Item) : direct (.opening start :: u ++ .closing stop :: w) = direct w := by
  show directAt 1 (u ++ .closing stop :: w) = directAt 0 w
  rw [hu.directAt_succ]
  rfl

theorem direct_leaf {item : Item} (hl : item.isLeaf) (w : List Item) :
    direct (item :: w) = item :: direct w :=
  directAt_leaf hl 0 w

theorem Balanced.direct_append {u : List Item} (hu : Balanced u) (w : List Item) :
    direct (u ++ w) = direct u ++ direct w := by
  induction hu with
  | nil => rfl
  | leaf hl _ ih => rw [List.cons_append, direct_leaf hl, direct_leaf hl, ih, List.cons_append]
  | group hu _ _ ihv =>
    rw [hu.direct_group, List.append_assoc]
    exact (hu.direct_group _ _ _).trans ihv

/-! ## Parentheses that are open -/

/-- Whether the item opens parentheses. -/
def isOpening : Item → Bool
  | .opening _ => true
  | _ => false

/-- Whether the item closes parentheses. -/
def isClosing : Item → Bool
  | .closing _ => true
  | _ => false

theorem not_isParenthesis_of_isLeaf {item : Item} (h : item.isLeaf) :
    item.isOpening = false ∧ item.isClosing = false := by
  cases item with
  | opening | closing => cases h
  | operand | operator | separator | list => exact ⟨rfl, rfl⟩

/-- From any place on, balanced items open no more parentheses than they close; and from the
beginning on, as many. -/
theorem Balanced.countP_le {w : List Item} (hw : Balanced w) :
    w.countP isOpening = w.countP isClosing ∧
      ∀ u v, w = u ++ v → v.countP isOpening ≤ v.countP isClosing := by
  induction hw with
  | nil =>
    refine ⟨rfl, fun u v h => ?_⟩
    obtain ⟨-, rfl⟩ := List.append_eq_nil_iff.1 h.symm
    exact Nat.le_refl 0
  | @leaf item w hl _ ih =>
    obtain ⟨ho, hc⟩ := not_isParenthesis_of_isLeaf hl
    have hcount : (item :: w).countP isOpening = (item :: w).countP isClosing := by
      rw [List.countP_cons_of_neg (by simp [ho]), List.countP_cons_of_neg (by simp [hc]), ih.1]
    refine ⟨hcount, fun u v h => ?_⟩
    rcases List.cons_eq_append_iff.1 h with ⟨rfl, rfl⟩ | ⟨u', rfl, hw⟩
    · exact hcount.le
    · exact ih.2 u' v hw
  | @group start stop a b _ _ iha ihb =>
    have ha := iha.1
    have hb := ihb.1
    have hcount : (Item.opening start :: a ++ .closing stop :: b).countP isOpening =
        (Item.opening start :: a ++ .closing stop :: b).countP isClosing := by
      simp only [List.countP_append, List.countP_cons, isOpening, isClosing, Bool.false_eq_true,
        if_false, if_true]
      omega
    refine ⟨hcount, fun u v h => ?_⟩
    rcases List.cons_eq_append_iff.1 h with ⟨rfl, rfl⟩ | ⟨u', rfl, h'⟩
    · exact hcount.le
    rcases List.append_eq_append_iff.1 h' with ⟨v', rfl, h''⟩ | ⟨v', ha', rfl⟩
    · rcases List.cons_eq_append_iff.1 h'' with ⟨rfl, rfl⟩ | ⟨v'', rfl, hb'⟩
      · simp only [List.countP_cons, isOpening, isClosing, Bool.false_eq_true,
        if_false, if_true]
        omega
      · exact ihb.2 v'' v hb'
    · have hle := iha.2 u' v' ha'
      simp only [List.countP_append, List.countP_cons, isOpening, isClosing, Bool.false_eq_true,
        if_false, if_true]
      omega

/-- In balanced items each parenthesis that is opened is closed. -/
theorem Balanced.not_balanced_of_opening {u w : List Item} {span : Span}
    (h : Balanced (u ++ .opening span :: w)) : ¬ Balanced w := by
  intro hw
  have hle := h.countP_le.2 u (.opening span :: w) rfl
  have heq := hw.countP_le.1
  simp only [List.countP_cons, isOpening, isClosing, Bool.false_eq_true, if_false,
    if_true] at hle
  omega

/-- What stands in the innermost open parentheses is determined by the items. -/
theorem Balanced.eq_of_opening {u u' w w' : List Item} {span span' : Span} (hw : Balanced w)
    (hw' : Balanced w') (h : u ++ .opening span :: w = u' ++ .opening span' :: w') : w = w' := by
  rcases List.append_eq_append_iff.1 h with ⟨v, -, h⟩ | ⟨v, -, h⟩
  · rcases List.cons_eq_append_iff.1 h with ⟨-, h⟩ | ⟨v', -, rfl⟩
    · exact (List.cons.inj h).2.symm
    · exact absurd hw' hw.not_balanced_of_opening
  · rcases List.cons_eq_append_iff.1 h with ⟨-, h⟩ | ⟨v', -, rfl⟩
    · exact (List.cons.inj h).2
    · exact absurd hw hw'.not_balanced_of_opening

/-! ## Separators of a group -/

/-- Items of a group in which `n` of the `BETWEEN`s have no separator yet. -/
structure Paired (n : Nat) (group : List Item) : Prop where
  balanced : Balanced group
  le : ∀ u, u <+: direct group → u.countP isSeparator ≤ u.countP isBetween
  waiting : (direct group).countP isBetween = (direct group).countP isSeparator + n

theorem Paired.awaiting_iff {n : Nat} {group : List Item} (h : Paired n group) :
    Awaiting group ↔ 0 < n := by
  have := h.waiting
  unfold Awaiting
  omega

theorem paired_nil : Paired 0 [] :=
  ⟨.nil, by simp [direct, directAt], rfl⟩

/-- An item in parentheses inside of the group makes no difference. -/
theorem Paired.group {n : Nat} {group w : List Item} (h : Paired n group) (hw : Balanced w)
    (start stop : Span) : Paired n (group ++ (.opening start :: w ++ [.closing stop])) := by
  have hb : Balanced (.opening start :: w ++ [.closing stop]) := .group hw .nil
  have hd : direct (group ++ (.opening start :: w ++ [.closing stop])) = direct group := by
    rw [h.balanced.direct_append, hw.direct_group]
    exact List.append_nil _
  exact ⟨h.balanced.append hb, by rw [hd]; exact h.le, by rw [hd]; exact h.waiting⟩

theorem Paired.leaf {m n : Nat} {group : List Item} {item : Item} (h : Paired n group)
    (hl : item.isLeaf)
    (hcount : [item].countP isBetween + n = [item].countP isSeparator + m) :
    Paired m (group ++ [item]) := by
  have hd : direct (group ++ [item]) = direct group ++ [item] := by
    rw [h.balanced.direct_append, direct_leaf hl]
    rfl
  have hwaiting := h.waiting
  have htotal : (direct (group ++ [item])).countP isBetween =
      (direct (group ++ [item])).countP isSeparator + m := by
    rw [hd, List.countP_append, List.countP_append]
    omega
  refine ⟨h.balanced.push hl, fun u hu => ?_, htotal⟩
  rw [hd] at hu htotal
  rcases List.prefix_concat_iff.1 hu with rfl | hu
  · omega
  · exact h.le u hu

/-- Items after the beginning of a clause. The numbers are those of the `BETWEEN`s that wait in each
of the open parentheses, the innermost first. -/
inductive Waits : List Nat → List Item → Prop
  | clause {n : Nat} {w : List Item} : Paired n w → Waits [n] (.opening (.point 0) :: w)
  | opening {n : Nat} {ns : List Nat} {span : Span} {u w : List Item} :
    Waits ns u → Paired n w → Waits (n :: ns) (u ++ .opening span :: w)

namespace Waits

variable {m n : Nat} {ns : List Nat} {u w : List Item}

/-- What is added goes into the innermost group. -/
theorem append (h : Waits (n :: ns) u) (hw : ∀ group, Paired n group → Paired m (group ++ w)) :
    Waits (m :: ns) (u ++ w) := by
  cases h with
  | clause hu => exact .clause (hw _ hu)
  | opening hv hu =>
    rw [List.append_assoc]
    exact .opening hv (hw _ hu)

theorem close (h : Waits (m :: n :: ns) u) (stop : Span) :
    Waits (n :: ns) (u ++ [.closing stop]) := by
  cases h with
  | opening hv hu =>
    rw [List.append_assoc]
    exact hv.append fun group hg => hg.group hu.balanced _ stop

theorem exists_group (h : Waits ns u) :
    ∃ before start group, u = before ++ .opening start :: group ∧ Paired (ns.headD 0) group := by
  cases h with
  | clause hu => exact ⟨[], _, _, rfl, hu⟩
  | opening hv hu => exact ⟨_, _, _, rfl, hu⟩

theorem paired {start : Span} {before group : List Item}
    (h : Waits ns (before ++ .opening start :: group)) (hg : Balanced group) :
    ∃ n, Paired n group := by
  obtain ⟨before', start', group', heq, hp⟩ := h.exists_group
  rw [hg.eq_of_opening hp.balanced heq]
  exact ⟨_, hp⟩

end Waits

end Item

/-! ## One token -/

namespace Tagging

open Item

variable {t : OperatorTable} {state state' : Tagging} {token : Token}

/-- The numbers of `BETWEEN`s that wait, in each of the open parentheses. -/
def waitingNumbers (state : Tagging) : List Nat :=
  state.waiting :: state.groups.map OpenGroup.waiting

/-- An item that is no parenthesis changes the number of the innermost ones. -/
theorem waits_leaf {n : Nat} {item : Item} (h : Waits state.waitingNumbers state.items.reverse)
    (hl : item.isLeaf)
    (hcount : [item].countP isBetween + state.waiting = [item].countP isSeparator + n) :
    Waits (n :: state.groups.map OpenGroup.waiting) (item :: state.items).reverse := by
  rw [List.reverse_cons]
  exact h.append fun group hg => hg.leaf hl hcount

theorem waits_readWord (h : Waits state.waitingNumbers state.items.reverse) (word : String)
    (span : Span) :
    Waits (readWord t state word span).waitingNumbers
      (readWord t state word span).items.reverse := by
  unfold readWord
  split
  · rename_i hand
    have hpos : 0 < state.waiting := by simpa using (Bool.and_eq_true_iff.1 hand).2
    refine waits_leaf h rfl ?_
    show 0 + state.waiting = 1 + (state.waiting - 1)
    omega
  · split
    · exact waits_leaf h rfl rfl
    · refine waits_leaf h rfl ?_
      show 1 + state.waiting = 0 + (state.waiting + 1)
      omega
    · rename_i op _ hb _
      refine waits_leaf h rfl ?_
      rw [List.countP_cons_of_neg (by simpa [isBetween] using hb)]
      rfl

theorem waits_readToken (h : Waits state.waitingNumbers state.items.reverse)
    (hs : readToken t state token = .ok state') :
    Waits state'.waitingNumbers state'.items.reverse := by
  unfold readToken at hs
  split at hs
  · cases hs
    exact waits_leaf h rfl rfl
  · split at hs
    · cases hs
      exact h
    · cases hs
      rw [push, List.reverse_cons]
      exact .opening h paired_nil
  · unfold readClosing at hs
    split at hs
    · cases hs
    · rename_i group groups hg
      cases hs
      rw [waitingNumbers, hg, List.map_cons] at h
      rw [push, List.reverse_cons]
      exact h.close token.span
  all_goals
    cases hs
    exact waits_readWord h _ _

theorem waits_readListToken (h : Waits state.waitingNumbers state.items.reverse)
    (capture : Capture) :
    Waits (readListToken state capture token).waitingNumbers
      (readListToken state capture token).items.reverse := by
  unfold readListToken
  split
  · exact h
  · dsimp only
    split
    · exact waits_leaf h rfl rfl
    · exact h
  · exact h

theorem waits_step (h : Waits state.waitingNumbers state.items.reverse)
    (hs : step t state token = .ok state') : Waits state'.waitingNumbers state'.items.reverse := by
  unfold step at hs
  split at hs
  · cases hs
    exact waits_readListToken h _
  · exact waits_readToken h hs

/-! ## All tokens -/

theorem prefix_of_step (h : step t state token = .ok state') :
    state.items.reverse <+: state'.items.reverse := by
  cases move_step h with
  | capture hi => rw [hi]
  | leaf hi | opening hi | closing hi =>
    rw [hi, List.reverse_cons]
    exact List.prefix_append _ _

/-- Items that have been read stay. -/
theorem prefix_of_foldlM {tokens : List Token} (h : tokens.foldlM (step t) state = .ok state') :
    state.items.reverse <+: state'.items.reverse :=
  foldlM_preserves (Q := fun later => state.items.reverse <+: later.items.reverse)
    (fun hle hs => hle.trans (prefix_of_step hs)) List.prefix_rfl h

/-- The numbers of the state are those of the items, and numbers can be given for the items at any
time before. -/
structure Counted (state : Tagging) : Prop where
  waits : Waits state.waitingNumbers state.items.reverse
  earlier : ∀ ws, ws <+: state.items.reverse → ws ≠ [] → ∃ ns, Waits ns ws

theorem counted_initial : Counted initial where
  waits := .clause paired_nil
  earlier ws hws hne := by
    have hws : ws <+: [.opening (.point 0)] := hws
    rcases List.prefix_cons_iff.1 hws with rfl | ⟨rest, rfl, hrest⟩
    · exact absurd rfl hne
    · rw [List.prefix_nil.1 hrest]
      exact ⟨_, .clause paired_nil⟩

theorem Counted.step (h : Counted state) (hs : step t state token = .ok state') :
    Counted state' := by
  have hwaits := waits_step h.waits hs
  refine ⟨hwaits, fun ws hws hne => ?_⟩
  cases move_step hs with
  | capture hi =>
    rw [hi] at hws
    exact h.earlier ws hws hne
  | leaf hi | opening hi | closing hi =>
    -- the items are those from before, or all that there are now
    rw [hi, List.reverse_cons] at hws hwaits
    rcases List.prefix_concat_iff.1 hws with rfl | hws
    · exact ⟨_, hwaits⟩
    · exact h.earlier ws hws hne

theorem counted_foldlM {tokens : List Token} (h : Counted state)
    (hs : tokens.foldlM (Tagging.step t) state = .ok state') : Counted state' :=
  foldlM_preserves (fun h hs => h.step hs) h hs

end Tagging

/-! ## The items of words -/

namespace Item

/-- Whether an operand is to follow the items. -/
def lacksOperand (ws : List Item) : Bool :=
  match ws.getLast? with
  | some (.operand _ _) => false
  | some (.list _ _) => false
  | some (.closing _) => false
  | _ => true

/-- What the table makes of a word after the items: a word that is not in it is a name, and a minus
that follows no operand is a prefix. -/
def ofWord (t : OperatorTable) (ws : List Item) (word : String) (span : Span) : Item :=
  match t.get? word with
  | none => .operand (.identifier word) span
  | some op => .operator (if op = .subtract ∧ lacksOperand ws then .negate else op) span

/-- The tokens are read as the items, and no literal list is open after them. -/
def Tags (t : OperatorTable) (tokens : List Token) (ws : List Item) : Prop :=
  ∃ state, tokens.foldlM (Tagging.step t) .initial = .ok state ∧ state.capture = none ∧
    state.items.reverse = ws

end Item

namespace Tagging

open Item

variable {t : OperatorTable} {state : Tagging} {token : Token}

theorem lacksOperand_reverse (state : Tagging) :
    Item.lacksOperand state.items.reverse = state.lacksOperand := by
  unfold Item.lacksOperand lacksOperand
  rw [List.getLast?_reverse]
  match state.items with
  | [] => rfl
  | item :: rest => cases item <;> rfl

theorem operatorAt?_eq (state : Tagging) (word : String) :
    operatorAt? t state word = (t.get? word).map fun op =>
      if op = .subtract ∧ Item.lacksOperand state.items.reverse then .negate else op := by
  unfold operatorAt?
  rw [lacksOperand_reverse]
  cases hg : t.get? word with
  | none => rfl
  | some op =>
    simp only [Option.map_some, Option.some.injEq]
    split
    · rename_i hs
      rw [hs.1] at hg
      rw [OperatorTable.negation?_of_get? hg]
      rfl
    · rfl

/-- A word becomes one item, which is a separator if it is an `AND` and a `BETWEEN` waits. -/
theorem items_readWord (state : Tagging) (word : String) (span : Span) :
    (readWord t state word span).capture = state.capture ∧
      (readWord t state word span).items =
        (if Text.eqIgnoringAsciiCase word "AND" = true ∧ 0 < state.waiting then .separator span
          else ofWord t state.items.reverse word span) :: state.items := by
  unfold readWord
  simp only [Bool.and_eq_true, decide_eq_true_eq]
  split
  · exact ⟨rfl, rfl⟩
  · rw [operatorAt?_eq, ofWord]
    cases hg : t.get? word with
    | none => exact ⟨rfl, rfl⟩
    | some op =>
      simp only [Option.map_some]
      generalize (if op = .subtract ∧ Item.lacksOperand state.items.reverse = true then
        Operator.negate else op) = found
      split <;> rename_i ho <;> cases ho <;> exact ⟨rfl, rfl⟩

theorem readToken_eq_readWord {word : String} (hw : token.word? = some word)
    (ho : token.isOpening = false) (hc : token.isClosing = false) :
    readToken t state token = .ok (readWord t state word token.span) := by
  obtain ⟨kind, span⟩ := token
  unfold Token.word? at hw
  cases kind with
  | literal => cases hw
  | operator | identifier =>
    cases hw
    rfl
  | punctuation mark =>
    have ho : mark ≠ '(' := by simpa [Token.isOpening] using ho
    have hc : mark ≠ ')' := by simpa [Token.isClosing] using hc
    simp only [if_neg ho, if_neg hc, Option.some.injEq] at hw
    subst hw
    unfold readToken
    split <;> rename_i hk <;> cases hk
    · exact absurd rfl ho
    · exact absurd rfl hc
    · rfl

end Tagging

/-! ## Items of a clause -/

namespace Item

variable {t : OperatorTable} {length : Nat} {tokens : List Token} {items : List Item}

/-- The items of a clause are those of the last state, and the closing item. -/
theorem exists_state_of_ofTokens (h : ofTokens t length tokens = .ok items) :
    ∃ state, tokens.foldlM (Tagging.step t) .initial = .ok state ∧
      items = state.items.reverse ++ [.closing (.point length)] := by
  obtain ⟨state, hs, hf⟩ := bind_eq_ok_iff.1 h
  unfold Tagging.finish at hf
  split at hf
  · cases hf
  · cases hf
  · cases hf
    exact ⟨state, hs, by simp [Tagging.push]⟩

theorem prefix_of_ofTokens {before after : List Token} {state : Tagging}
    (h : ofTokens t length (before ++ after) = .ok items)
    (hs : before.foldlM (Tagging.step t) .initial = .ok state) : state.items.reverse <+: items := by
  obtain ⟨last, hl, rfl⟩ := exists_state_of_ofTokens h
  obtain ⟨state', hs', hr⟩ := foldlM_append_eq_ok_iff.1 hl
  cases hs.symm.trans hs'
  exact (Tagging.prefix_of_foldlM hr).trans (List.prefix_append _ _)

/-- No group has, up to any place in it, more separators than `BETWEEN`s. -/
theorem separators_le {before group after : List Item} {start stop : Span}
    (h : ofTokens t length tokens = .ok items)
    (hi : items = before ++ .opening start :: group ++ .closing stop :: after)
    (hg : Balanced group) :
    ∀ u, u <+: direct group → u.countP isSeparator ≤ u.countP isBetween := by
  obtain ⟨state, hs, rfl⟩ := exists_state_of_ofTokens h
  have hprefix : before ++ .opening start :: group <+: state.items.reverse := by
    have hall : before ++ .opening start :: group ++ [.closing stop] <+:
        state.items.reverse ++ [.closing (.point length)] := by
      rw [hi]
      exact ⟨after, by simp⟩
    rcases List.prefix_concat_iff.1 hall with heq | hpre
    · exact ⟨[], by simpa using (List.append_inj' heq rfl).1⟩
    · exact (List.prefix_append _ _).trans hpre
  obtain ⟨ns, hw⟩ :=
    (Tagging.counted_foldlM Tagging.counted_initial hs).earlier _ hprefix (by simp)
  obtain ⟨n, hp⟩ := hw.paired hg
  exact hp.le

/-- A word outside of literal lists becomes one item. It is a separator exactly if the word is an
`AND` and a `BETWEEN` of its own group waits, and else what the table makes of it. -/
theorem exists_tags_of_word {before after : List Token} {token : Token} {word : String}
    {ws : List Item} (h : ofTokens t length (before ++ token :: after) = .ok items)
    (hb : Tags t before ws) (hw : token.word? = some word) (ho : token.isOpening = false)
    (hc : token.isClosing = false) :
    ∃ outer start group item, ws = outer ++ .opening start :: group ∧ Balanced group ∧
      Tags t (before ++ [token]) (ws ++ [item]) ∧ ws ++ [item] <+: items ∧
      item = if Text.eqIgnoringAsciiCase word "AND" = true ∧ Awaiting group then
          .separator token.span
        else ofWord t ws word token.span := by
  obtain ⟨state, hs, hcap, rfl⟩ := hb
  have hstep : Tagging.step t state token =
      .ok (Tagging.readWord t state word token.span) := by
    unfold Tagging.step
    rw [hcap]
    exact Tagging.readToken_eq_readWord hw ho hc
  have hrun : (before ++ [token]).foldlM (Tagging.step t) .initial =
      .ok (Tagging.readWord t state word token.span) :=
    foldlM_concat_eq_ok_iff.2 ⟨state, hs, hstep⟩
  obtain ⟨hcap', hitems⟩ := Tagging.items_readWord (t := t) state word token.span
  obtain ⟨outer, start, group, hws, hp⟩ :=
    (Tagging.counted_foldlM Tagging.counted_initial hs).waits.exists_group
  have hpre := prefix_of_ofTokens (by rwa [List.append_cons] at h) hrun
  rw [hitems, List.reverse_cons] at hpre
  refine ⟨outer, start, group, _, hws, hp.balanced, ?_, hpre, ?_⟩
  · exact ⟨_, hrun, hcap'.trans hcap, by rw [hitems, List.reverse_cons]⟩
  · exact if_congr (and_congr_right fun _ => hp.awaiting_iff.symm) rfl rfl

/-- The items of a clause are properly nested. Of the items directly in any of its groups, no
beginning has more separators than `BETWEEN`s. A word outside of literal lists is a separator
exactly if it is an `AND` and, directly in its own group before it, more `BETWEEN`s than separators
stand; otherwise it is what the table makes of it. -/
theorem separators_pair_up (h : ofTokens t length tokens = .ok items) :
    (∃ body, items = .opening (.point 0) :: body ++ [.closing (.point length)] ∧ Balanced body) ∧
    (∀ before start group stop after,
      items = before ++ .opening start :: group ++ .closing stop :: after → Balanced group →
        ∀ u, u <+: direct group → u.countP isSeparator ≤ u.countP isBetween) ∧
    ∀ before token after word ws, tokens = before ++ token :: after → Tags t before ws →
      token.word? = some word → token.isOpening = false → token.isClosing = false →
        ∃ outer start group item, ws = outer ++ .opening start :: group ∧ Balanced group ∧
          Tags t (before ++ [token]) (ws ++ [item]) ∧ ws ++ [item] <+: items ∧
          item = if Text.eqIgnoringAsciiCase word "AND" = true ∧ Awaiting group then
              .separator token.span
            else ofWord t ws word token.span := by
  refine ⟨?_, fun before start group stop after hi hg => separators_le h hi hg, ?_⟩
  · obtain ⟨body, hi, hb, -⟩ := balanced_of_ofTokens h
    exact ⟨body, hi, hb⟩
  · rintro before token after word ws rfl hb hw ho hc
    exact exists_tags_of_word h hb hw ho hc

/-- In `a BETWEEN (b AND c) and d` the first `AND` is an operator, since the `BETWEEN` stands
outside of its parentheses, and the second one is the separator. -/
theorem separators_pair_up_nested :
    Tags .standard
        [⟨.identifier "a", ⟨0, 1⟩⟩, ⟨.identifier "BETWEEN", ⟨2, 9⟩⟩, ⟨.punctuation '(', ⟨10, 11⟩⟩,
          ⟨.identifier "b", ⟨11, 12⟩⟩, ⟨.identifier "AND", ⟨13, 16⟩⟩]
        [.opening ⟨0, 0⟩, .operand (.identifier "a") ⟨0, 1⟩, .operator .between ⟨2, 9⟩,
          .opening ⟨10, 11⟩, .operand (.identifier "b") ⟨11, 12⟩, .operator .and ⟨13, 16⟩] ∧
      Tags .standard
        [⟨.identifier "a", ⟨0, 1⟩⟩, ⟨.identifier "BETWEEN", ⟨2, 9⟩⟩, ⟨.punctuation '(', ⟨10, 11⟩⟩,
          ⟨.identifier "b", ⟨11, 12⟩⟩, ⟨.identifier "AND", ⟨13, 16⟩⟩, ⟨.identifier "c", ⟨17, 18⟩⟩,
          ⟨.punctuation ')', ⟨18, 19⟩⟩, ⟨.identifier "and", ⟨20, 23⟩⟩]
        [.opening ⟨0, 0⟩, .operand (.identifier "a") ⟨0, 1⟩, .operator .between ⟨2, 9⟩,
          .opening ⟨10, 11⟩, .operand (.identifier "b") ⟨11, 12⟩, .operator .and ⟨13, 16⟩,
          .operand (.identifier "c") ⟨17, 18⟩, .closing ⟨18, 19⟩, .separator ⟨20, 23⟩] := by
  have h : ofTokens .standard 25
      [⟨.identifier "a", ⟨0, 1⟩⟩, ⟨.identifier "BETWEEN", ⟨2, 9⟩⟩, ⟨.punctuation '(', ⟨10, 11⟩⟩,
        ⟨.identifier "b", ⟨11, 12⟩⟩, ⟨.identifier "AND", ⟨13, 16⟩⟩, ⟨.identifier "c", ⟨17, 18⟩⟩,
        ⟨.punctuation ')', ⟨18, 19⟩⟩, ⟨.identifier "and", ⟨20, 23⟩⟩,
        ⟨.identifier "d", ⟨24, 25⟩⟩] = .ok _ := rfl
  have hword := (separators_pair_up h).2.2
  have hb : Balanced [.operand (.identifier "b") ⟨11, 12⟩] := .leaf rfl .nil
  have hbc : Balanced [.operand (.identifier "b") ⟨11, 12⟩, .operator .and ⟨13, 16⟩,
      .operand (.identifier "c") ⟨17, 18⟩] := .leaf rfl (.leaf rfl (.leaf rfl .nil))
  constructor
  · obtain ⟨outer, start, group, item, hws, hg, htags, -, rfl⟩ := hword
      [⟨.identifier "a", ⟨0, 1⟩⟩, ⟨.identifier "BETWEEN", ⟨2, 9⟩⟩, ⟨.punctuation '(', ⟨10, 11⟩⟩,
        ⟨.identifier "b", ⟨11, 12⟩⟩] ⟨.identifier "AND", ⟨13, 16⟩⟩ _ _ _ rfl ⟨_, rfl, rfl, rfl⟩
      rfl rfl rfl
    have hws : [.opening ⟨0, 0⟩, .operand (.identifier "a") ⟨0, 1⟩, .operator .between ⟨2, 9⟩] ++
        .opening ⟨10, 11⟩ :: _ = outer ++ .opening start :: group := hws
    obtain rfl := hb.eq_of_opening hg hws
    rw [if_neg (by decide)] at htags
    exact htags
  · obtain ⟨outer, start, group, item, hws, hg, htags, -, rfl⟩ := hword
      [⟨.identifier "a", ⟨0, 1⟩⟩, ⟨.identifier "BETWEEN", ⟨2, 9⟩⟩, ⟨.punctuation '(', ⟨10, 11⟩⟩,
        ⟨.identifier "b", ⟨11, 12⟩⟩, ⟨.identifier "AND", ⟨13, 16⟩⟩, ⟨.identifier "c", ⟨17, 18⟩⟩,
        ⟨.punctuation ')', ⟨18, 19⟩⟩] ⟨.identifier "and", ⟨20, 23⟩⟩ _ _ _ rfl ⟨_, rfl, rfl, rfl⟩
      rfl rfl rfl
    have hgroup : Balanced (.operand (.identifier "a") ⟨0, 1⟩ :: .operator .between ⟨2, 9⟩ ::
        (.opening ⟨10, 11⟩ :: _ ++ .closing ⟨18, 19⟩ :: [])) :=
      .leaf rfl (.leaf rfl (.group hbc .nil))
    have hws : [] ++ .opening ⟨0, 0⟩ :: _ = outer ++ .opening start :: group := hws
    obtain rfl := hgroup.eq_of_opening hg hws
    rw [if_pos (by decide)] at htags
    exact htags

end Item

end WhereClause
