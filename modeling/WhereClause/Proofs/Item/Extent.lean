import WhereClause.Proofs.Item.Origin

/-!
# Places of operands

An operand that is made of several items has a place that is merged from theirs. How it is merged
depends on the way of reading: parentheses are left out of it, except for empty ones, and of these
either both or only the closing one count. What all have in common is said by `Item.Extent`.

From this and from the items alone it is said for what items a clause may be refused.
-/

namespace WhereClause

namespace Item

/-- Where the item stands. -/
def span : Item → Span
  | .opening span => span
  | .closing span => span
  | .operand _ span => span
  | .operator _ span => span
  | .separator span => span
  | .list _ span => span

variable {u v w : List Item} {item : Item} {x y z place start stop : Span}

theorem lacksOperand_append (hu : u ≠ []) :
    lacksOperand (w ++ u) = lacksOperand u := by
  unfold lacksOperand
  rw [List.getLast?_append_of_ne_nil w hu]

theorem lacksOperand_opening : lacksOperand (u ++ .opening start :: w) = lacksOperand w := by
  cases w with
  | nil => rw [lacksOperand_append (by simp)]; rfl
  | cons => rw [List.append_cons, lacksOperand_append (by simp)]

theorem exists_endsOperand (h : lacksOperand w = false) :
    ∃ before earlier, w = before ++ [earlier] ∧ earlier.endsOperand = true := by
  rcases List.eq_nil_or_concat' w with rfl | ⟨before, earlier, rfl⟩
  · cases h
  · refine ⟨before, earlier, rfl, ?_⟩
    rw [endsOperand_of_getLast? List.getLast?_concat, h]
    rfl

/-! ## Merged places -/

/-- The span starts where one of the items starts, and stops where one of them stops. -/
def Within (w : List Item) (span : Span) : Prop :=
  (∃ item ∈ w, item.span.start = span.start) ∧ ∃ item ∈ w, item.span.stop = span.stop

theorem within_span (item : Item) (h : item ∈ w) : Within w item.span :=
  ⟨⟨item, h, rfl⟩, ⟨item, h, rfl⟩⟩

theorem Within.mono (h : Within u x) (hu : u ⊆ w) : Within w x := by
  obtain ⟨⟨a, ha, hstart⟩, ⟨b, hb, hstop⟩⟩ := h
  exact ⟨⟨a, hu ha, hstart⟩, ⟨b, hu hb, hstop⟩⟩

theorem Within.merge (hx : Within w x) (hy : Within w y) : Within w (x.merge y) := by
  obtain ⟨⟨a, ha, hax⟩, ⟨b, hb, hbx⟩⟩ := hx
  obtain ⟨⟨c, hc, hcy⟩, ⟨d, hd, hdy⟩⟩ := hy
  constructor
  · rcases Nat.le_total x.start y.start with hle | hle
    · exact ⟨a, ha, by rw [hax, Span.merge, Nat.min_eq_left hle]⟩
    · exact ⟨c, hc, by rw [hcy, Span.merge, Nat.min_eq_right hle]⟩
  · rcases Nat.le_total x.stop y.stop with hle | hle
    · exact ⟨d, hd, by rw [hdy, Span.merge, Nat.max_eq_right hle]⟩
    · exact ⟨b, hb, by rw [hbx, Span.merge, Nat.max_eq_left hle]⟩

/-! ## Operands -/

/-- The items are those of one operand, outside of whose parentheses each `BETWEEN` has its
separator; and the span, which is taken from them, starts no later than the first one, unless that
is a parenthesis. -/
structure Extent (w : List Item) (span : Span) : Prop where
  balanced : Balanced w
  even : (direct w).countP isSeparator = (direct w).countP isBetween
  within : Within w span
  front : ∀ first rest, w = first :: rest → first.isOpening = false →
    span.start ≤ first.span.start

namespace Extent

theorem ne_nil (h : Extent w x) : w ≠ [] := by
  rintro rfl
  obtain ⟨⟨item, hm, -⟩, -⟩ := h.within
  cases hm

theorem leaf (hl : item.isLeaf) (hs : item.isSeparator = false) (hb : item.isBetween = false) :
    Extent [item] item.span where
  balanced := .leaf hl .nil
  even := by
    rw [direct_leaf hl, List.countP_cons_of_neg (by simp [hs]),
      List.countP_cons_of_neg (by simp [hb])]
    rfl
  within := within_span item List.mem_cons_self
  front first rest h _ := by
    obtain ⟨rfl, -⟩ := List.cons.inj h
    exact Nat.le_refl _

/-- In parentheses any place will do that is taken from the items. -/
theorem parenthesized (hb : Balanced w)
    (hw : Within (.opening start :: w ++ [.closing stop]) x) :
    Extent (.opening start :: w ++ [.closing stop]) x where
  balanced := .group hb .nil
  even := by
    rw [hb.direct_group]
    rfl
  within := hw
  front first rest h hopen := by
    rw [List.cons_append] at h
    obtain ⟨rfl, -⟩ := List.cons.inj h
    cases hopen

theorem group (h : Extent w x) : Extent (.opening start :: w ++ [.closing stop]) x :=
  parenthesized h.balanced (h.within.mono fun _ hm => by simp [hm])

theorem unary {op : Operator} (hp : op.isPrefix = true) (h : Extent w x) :
    Extent (.operator op place :: w) (place.merge x) where
  balanced := .leaf rfl h.balanced
  even := by
    have hb : op ≠ .between := by
      rintro rfl
      cases hp
    rw [direct_leaf rfl, List.countP_cons_of_neg (by simp [isSeparator]),
      List.countP_cons_of_neg (by simp [isBetween, hb]), h.even]
  within := (within_span (.operator op place) List.mem_cons_self).merge
    (h.within.mono (List.subset_cons_self _ _))
  front first rest heq _ := by
    obtain ⟨rfl, -⟩ := List.cons.inj heq
    exact Nat.min_le_left _ _

/-- What comes after an operand may make it part of a larger one. -/
theorem append (h : Extent u x) (hv : Balanced v)
    (heven : (direct v).countP isSeparator = (direct v).countP isBetween)
    (hw : Within (u ++ v) y) (hle : y.start ≤ x.start) : Extent (u ++ v) y where
  balanced := h.balanced.append hv
  even := by rw [h.balanced.direct_append, List.countP_append, List.countP_append, h.even, heven]
  within := hw
  front first rest heq hopen := by
    obtain ⟨item, u', rfl⟩ := List.exists_cons_of_ne_nil h.ne_nil
    obtain ⟨rfl, -⟩ := List.cons.inj heq
    exact hle.trans (h.front _ _ rfl hopen)

theorem binary {op : Operator} (hb : op ≠ .between) (hx : Extent u x) (hy : Extent w y)
    (hz : z = x.merge y ∨ z = (place.merge x).merge y) :
    Extent (u ++ .operator op place :: w) z := by
  have hwx : Within (u ++ .operator op place :: w) x :=
    hx.within.mono (List.subset_append_left _ _)
  have hwy : Within (u ++ .operator op place :: w) y := hy.within.mono fun _ hm => by simp [hm]
  have hwp : Within (u ++ .operator op place :: w) place :=
    within_span (.operator op place) (by simp)
  refine hx.append (.leaf rfl hy.balanced) ?_ ?_ ?_
  · rw [direct_leaf rfl, List.countP_cons_of_neg (by simp [isSeparator]),
      List.countP_cons_of_neg (by simp [isBetween, hb]), hy.even]
  · rcases hz with rfl | rfl
    · exact hwx.merge hwy
    · exact (hwp.merge hwx).merge hwy
  · rcases hz with rfl | rfl <;> simp only [Span.merge] <;> omega

theorem between (hx : Extent u x) (hy : Extent v y) (hz : Extent w z) :
    Extent (u ++ .operator .between place :: v ++ .separator stop :: w)
      (((place.merge x).merge y).merge z) := by
  rw [List.append_assoc]
  refine hx.append ((Balanced.leaf rfl hy.balanced).append (.leaf rfl hz.balanced)) ?_ ?_ ?_
  · rw [List.cons_append, direct_leaf rfl, hy.balanced.direct_append, direct_leaf rfl]
    simp only [List.countP_cons, List.countP_append, hy.even, hz.even, isSeparator, isBetween,
      decide_true, if_true, Bool.false_eq_true, if_false]
    omega
  · have hwp := within_span (w := u ++ (.operator .between place :: v ++ .separator stop :: w))
      (.operator .between place) (by simp)
    refine ((hwp.merge (hx.within.mono ?_)).merge (hy.within.mono ?_)).merge (hz.within.mono ?_)
    all_goals
      intro item hm
      simp [hm]
  · simp only [Span.merge]
    omega

end Extent

end Item

/-! ## Items as they come from tokens -/

namespace Item

/-- The operators are those of the table, and a separator comes only where a `BETWEEN` waits. -/
structure Regular (t : OperatorTable) (ws : List Item) : Prop where
  known : ∀ item ∈ ws, item.Known t
  waits : ∀ u, u <+: ws → u ≠ [] → ∃ ns, Waits ns u

variable {t : OperatorTable} {ws : List Item}

theorem Regular.of_prefix {u : List Item} (h : Regular t ws) (hu : u <+: ws) : Regular t u where
  known item hm := h.known item (hu.subset hm)
  waits v hv := h.waits v (hv.trans hu)

/-- The group that is still open has no more separators than `BETWEEN`s. -/
theorem Regular.countP_le {before group : List Item} {start : Span}
    (h : Regular t (before ++ .opening start :: group)) (hg : Balanced group) :
    (direct group).countP isSeparator ≤ (direct group).countP isBetween := by
  obtain ⟨ns, hw⟩ := h.waits _ List.prefix_rfl (by simp)
  obtain ⟨n, hp⟩ := hw.paired hg
  exact hp.le _ List.prefix_rfl

/-- No separator comes where each `BETWEEN` of the group has its own. -/
theorem Regular.not_separator {before group : List Item} {start stop : Span}
    (h : Regular t (before ++ .opening start :: group ++ [.separator stop])) (hg : Balanced group)
    (heven : (direct group).countP isSeparator = (direct group).countP isBetween) : False := by
  rw [List.append_assoc, List.cons_append] at h
  have hle := h.countP_le (hg.push rfl)
  have hone : (direct [.separator stop]).countP isSeparator = 1 := rfl
  have hzero : (direct [.separator stop]).countP isBetween = 0 := rfl
  rw [hg.direct_append, List.countP_append, List.countP_append] at hle
  omega

/-- No items come outside of all groups. -/
theorem Regular.eq_nil_of_balanced {w : List Item} (h : Regular t w) (hw : Balanced w) :
    w = [] := by
  by_contra hne
  obtain ⟨ns, hwaits⟩ := h.waits _ List.prefix_rfl hne
  obtain ⟨before, start, group, rfl, hp⟩ := hwaits.exists_group
  exact hw.not_balanced_of_opening hp.balanced

/-- No parenthesis closes before one has been opened. -/
theorem Regular.ne_nil_of_closing {w : List Item} {stop : Span}
    (h : Regular t (w ++ [.closing stop])) : w ≠ [] := by
  rintro rfl
  obtain ⟨ns, hwaits⟩ := h.waits _ List.prefix_rfl (by simp)
  obtain ⟨before, start, group, heq, -⟩ := hwaits.exists_group
  have hmem : .opening start ∈ [Item.closing stop] := by
    rw [← List.nil_append [_], heq]
    simp
  simp at hmem

/-- No separator comes outside of all groups. -/
theorem Regular.not_separator_of_balanced {w : List Item} {stop : Span}
    (h : Regular t (w ++ [.separator stop])) (hw : Balanced w) : False := by
  have hnil := h.eq_nil_of_balanced (hw.push rfl)
  simp at hnil

/-- The item may come after the items: an operator is one of the table, a separator comes where a
`BETWEEN` waits, and a parenthesis closes only if one is open. -/
structure Continues (t : OperatorTable) (ws : List Item) (item : Item) : Prop where
  regular : Regular t ws
  known : item.Known t
  separator : ∀ stop, item = .separator stop → Regular t (ws ++ [.separator stop])
  closing : ∀ stop, item = .closing stop → ws ≠ []

theorem Regular.continues {item : Item} (h : Regular t (ws ++ [item])) : Continues t ws item where
  regular := h.of_prefix (List.prefix_append _ _)
  known := h.known item (by simp)
  separator := by
    rintro stop rfl
    exact h
  closing := by
    rintro stop rfl
    exact h.ne_nil_of_closing

theorem regular_of_ofTokens {length : Nat} {tokens : List Token}
    (h : ofTokens t length tokens = .ok (ws ++ [.closing (.point length)])) : Regular t ws := by
  obtain ⟨state, hs, hi⟩ := exists_state_of_ofTokens h
  obtain rfl := (List.append_inj' hi rfl).1
  have hknown := (Tagging.nestedAndKnown_foldlM (Tagging.nestedAndKnown_initial t) hs).known
  refine ⟨fun item hm => hknown item (List.mem_reverse.1 hm), fun u hu hne => ?_⟩
  exact (Tagging.counted_foldlM Tagging.counted_initial hs).earlier u hu hne

/-- Each item of a clause may come after those before it. -/
theorem continues_of_ofTokens {length : Nat} {tokens : List Token} {items rest : List Item}
    {item : Item} (h : ofTokens t length tokens = .ok items) (hi : items = ws ++ item :: rest) :
    Continues t ws item := by
  obtain ⟨body, rfl, -⟩ := balanced_of_ofTokens h
  have hregular := regular_of_ofTokens h
  rcases List.eq_nil_or_concat' rest with rfl | ⟨rest, last, rfl⟩
  · -- the parenthesis that stands for the end of the clause
    obtain ⟨rfl, hlast⟩ := List.append_inj' hi rfl
    obtain rfl : .closing (.point length) = item := by simpa using hlast
    exact ⟨hregular, trivial, nofun, by simp⟩
  · have hsplit : ws ++ item :: (rest ++ [last]) = (ws ++ [item] ++ rest) ++ [last] := by simp
    obtain ⟨hbody, -⟩ := List.append_inj' (hi.trans hsplit) rfl
    rw [hbody] at hregular
    exact (hregular.of_prefix (List.prefix_append _ _)).continues

end Item

/-! ## Reasons of a refusal -/

/-- Items for which a clause may be refused with an error. -/
inductive SyntaxError.ArisesIn (items : List Item) : SyntaxError → Prop
  | missingOperand {op : Operator} {span : Span} : .operator op span ∈ items →
    ArisesIn items (.missingOperand op span)
  | malformedBetween {span : Span} : .operator .between span ∈ items →
    ArisesIn items (.malformedBetween span)
  | missingOperator {before after : List Item} {earlier item : Item} :
    items = before ++ earlier :: item :: after → earlier.endsOperand = true →
      item.beginsOperand = true → ArisesIn items (.missingOperator item.span)
  /-- What stands directly after an `IN` is no list. -/
  | invalidInTarget {before target after : List Item} {place span : Span} :
    items = before ++ .operator .isIn place :: target ++ after → Item.Extent target span →
      ArisesIn items (.invalidInTarget span)

theorem SyntaxError.ArisesIn.mono {w items : List Item} {err : SyntaxError}
    (h : err.ArisesIn w) (hw : w <:+: items) : err.ArisesIn items := by
  obtain ⟨u, v, rfl⟩ := hw
  cases h with
  | missingOperand hm => exact .missingOperand (by simp [hm])
  | malformedBetween hm => exact .malformedBetween (by simp [hm])
  | @missingOperator before after earlier item hw he hb =>
    have hsplit : u ++ w ++ v = (u ++ before) ++ earlier :: item :: (after ++ v) := by simp [hw]
    exact .missingOperator hsplit he hb
  | @invalidInTarget before target after place span hw hx =>
    have hsplit : u ++ w ++ v =
        (u ++ before) ++ .operator .isIn place :: target ++ (after ++ v) := by simp [hw]
    exact .invalidInTarget hsplit hx

end WhereClause
