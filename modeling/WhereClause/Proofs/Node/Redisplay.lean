import WhereClause.Proofs.Item.Legible
import WhereClause.Proofs.Node.Bracketing

/-!
# Reading a clause as it is shown

A clause is shown with its own parentheses, but for those around a single operand or around other
parentheses. The text is read again as the same clause: leaving parentheses out changes neither what
an operator belongs to nor what it is.

The items that are read from the text differ from those of the clause by parentheses, so the two are
compared through the grammar. By induction over a derivation, the nodes of the items have a text
whose tokens are read as items with the same nodes, from which the same tree is derived. A single
node needs no parentheses: it is an operand, a list after an `IN`, or still has parentheses of its
own, so it may stand wherever an operand may. Only while a `BETWEEN` waits for its `AND` must
neither of these operators occur outside of parentheses, and in the lower bound of a `BETWEEN` they
do not, since they bind no tighter than it does.
-/

namespace WhereClause

open Grammar Tagging

/-! ## Nodes of items -/

namespace Grouping

/-- The items add these nodes to the innermost group. -/
def Adds (w : List Item) (nodes : List Node) : Prop :=
  ∀ grouping : Grouping,
    w.foldl step grouping = { grouping with inner := nodes.reverse ++ grouping.inner }

variable {u w : List Item} {nodes nodes' : List Node}

theorem adds_singleton {item : Item} {node : Node}
    (h : ∀ grouping : Grouping, grouping.step item = grouping.push node) : Adds [item] [node] :=
  h

theorem Adds.append (hu : Adds u nodes) (hw : Adds w nodes') : Adds (u ++ w) (nodes ++ nodes') := by
  intro grouping
  rw [List.foldl_append, hu, hw]
  simp

theorem Adds.operator (h : Adds w nodes) (op : Operator) (span : Span) :
    Adds (.operator op span :: w) (.operator op :: nodes) :=
  (adds_singleton fun _ => rfl).append h

theorem Adds.separator (h : Adds w nodes) (span : Span) :
    Adds (.separator span :: w) (.separator :: nodes) :=
  (adds_singleton fun _ => rfl).append h

theorem Adds.group (h : Adds w nodes) (start stop : Span) :
    Adds (.opening start :: w ++ [.closing stop]) [.collapse nodes] := by
  intro grouping
  rw [List.cons_append, List.foldl_cons, List.foldl_append, h]
  simp [step]

theorem Adds.ofItems {node : Node} (h : Adds w [node]) : Node.ofItems w = node := by
  rw [Node.ofItems, h]
  rfl

end Grouping

open Grouping

/-! ## Texts of nodes -/

namespace Node

variable {nodes nodes' : List Node} {ks ks' : List Token.Kind}

/-- The text of nodes side by side. -/
def row (nodes : List Node) : List Char :=
  Text.joinWith [' '] (nodes.map write)

theorem row_singleton (node : Node) : row [node] = node.write := rfl

theorem row_append (h : nodes ≠ []) (h' : nodes' ≠ []) :
    row (nodes ++ nodes') = row nodes ++ [' '] ++ row nodes' := by
  obtain ⟨node, rest, rfl⟩ := List.exists_cons_of_ne_nil h
  obtain ⟨node', rest', rfl⟩ := List.exists_cons_of_ne_nil h'
  simp [row, Text.joinWith_cons]

theorem write_group (nodes : List Node) :
    (Node.group nodes).write = Text.parenthesized (row nodes) := by
  rw [write, writeAll_eq]
  rfl

theorem lexes_row_append (hn : nodes ≠ []) (hn' : nodes' ≠ [])
    (h : Lexes (row nodes) ks True) (h' : Lexes (row nodes') ks' True) :
    Lexes (row (nodes ++ nodes')) (ks ++ ks') True := by
  rw [row_append hn hn']
  exact h.cuts.append_lexes h'

theorem lexes_row_cons {node : Node} {k : Token.Kind} (hn : nodes ≠ [])
    (h : Lexes node.write [k] True) (h' : Lexes (row nodes) ks True) :
    Lexes (row (node :: nodes)) (k :: ks) True :=
  lexes_row_append (List.cons_ne_nil node []) hn h h'

end Node

open Node

/-! ## Tokens of single nodes -/

/-- The operand is written as a token that is read as the operand. -/
theorem Operand.WellFormed.exists_kind {x : Operand} (h : x.WellFormed false) :
    ∃ k, Lexes x.write [k] True ∧ ∀ (state : Tagging) (token : Token), state.capture = none →
      token.kind = k → step .standard state token = .ok (state.push (.operand x token.span)) := by
  obtain ⟨hr, hl, hsign⟩ := h.legible
  obtain ⟨hq, hw⟩ := x.legible_iff.1 hl
  obtain ⟨hs, hlex⟩ := Operand.spelled hr
  have hlex : Lexes x.write x.kinds True := hlex.congr (iff_of_true hq trivial)
  generalize x.kinds = ks at hs hlex
  cases hs with
  | string => exact ⟨_, hlex, fun state token hc hk => step_literal hc hk⟩
  | @plain value v _ _ hv _ =>
    have hv : (Operand.literal v == .literal value) = true := hv
    obtain rfl : v = value := Operand.literal.inj (h.eq_of_beq hv)
    exact ⟨_, hlex, fun state token hc hk => step_literal hc hk⟩
  | signed _ _ _ hm _ => simp [hm] at hsign
  | broken sign hs _ _ _ _ hm => exact absurd hm (hw (Operand.string?_literal hs).1)
  | name _ hg => exact ⟨_, hlex, fun state token hc hk => step_name hc (hg rfl) hk⟩
  | symbol hf => cases hf

/-- An operator with one or two operands is written as a token that is read as the operator, where
its operands stand as they should and an `AND` cannot belong to a `BETWEEN`. -/
theorem Operator.exists_kind {op : Operator} (hop : op ∈ OperatorTable.standard.tiers.flatten)
    (hb : op ≠ .between) :
    ∃ k, Lexes op.symbol.toList [k] True ∧
      ∀ (state : Tagging) (token : Token), state.capture = none → (op = .and → state.waiting = 0) →
        state.lacksOperand = op.isPrefix → token.kind = k →
          step .standard state token = .ok (state.push (.operator op token.span)) := by
  by_cases hcomma : op = .comma
  · subst hcomma
    have hcut : Cuts [','] [.punctuation ','] := cuts_single (by decide) (by decide)
    exact ⟨_, hcut.lexes, fun state token hc _ hl hk => step_comma hc hl hk⟩
  · exact ⟨_, Operator.lexes_symbol hop hcomma,
      fun state token hc hw hl hk => step_operator hop hb hc hw hl hk⟩

/-! ## Places -/

/-- Items that begin like these may be read next: an operand is to follow, and it may be a literal
list exactly if it comes directly after an `IN`. -/
structure Tagging.Admits (state : Tagging) (w : List Item) : Prop where
  capture : state.capture = none
  lacksOperand : state.lacksOperand = true
  list : ∀ es span, w.head? = some (.list es span) → state.afterIn = true
  opening : ∀ span, w.head? = some (.opening span) → state.afterIn = false

/-- What stands after an item in a clause may be read where this item has been read. -/
theorem Tagging.admits_of_chain {state : Tagging} {item : Item} {w : List Item}
    (hc : state.capture = none) (hl : state.lacksOperand = true)
    (ha : state.afterIn = true ↔ ∃ span, item = .operator .isIn span)
    (h : (item :: w).IsChain Item.Adjoins) : state.Admits w := by
  refine ⟨hc, hl, fun es span hw => ?_, fun span hw => ?_⟩
  · obtain ⟨rest, rfl⟩ := List.head?_eq_some_iff.1 hw
    have hadjoins := (List.isChain_cons_cons.1 h).1
    exact ha.2 (hadjoins.list es span rfl)
  · obtain ⟨rest, rfl⟩ := List.head?_eq_some_iff.1 hw
    have hadjoins := (List.isChain_cons_cons.1 h).1
    refine Bool.eq_false_iff.2 fun hin => ?_
    obtain ⟨span', hitem⟩ := ha.1 hin
    exact hadjoins.opening span rfl span' hitem

theorem Tagging.admits_operator {state : Tagging} {op : Operator} {span : Span} {w : List Item}
    (hc : state.capture = none) (h : (Item.operator op span :: w).IsChain Item.Adjoins)
    (span' : Span) : (state.push (.operator op span')).Admits w :=
  admits_of_chain hc rfl (by simp [afterIn, push]) h

theorem Tagging.Admits.append {state : Tagging} {u w : List Item} (h : state.Admits (u ++ w))
    (hu : u ≠ []) : state.Admits u := by
  obtain ⟨item, rest, rfl⟩ := List.exists_cons_of_ne_nil hu
  exact ⟨h.capture, h.lacksOperand, h.list, h.opening⟩

/-- The nodes of items of a category cannot be mistaken for others: no `BETWEEN` waits for its
`AND`, or the category has neither of these operators, or there is just one node. -/
def Tagging.Calm (state : Tagging) (c : Category) (nodes : List Node) : Prop :=
  state.waiting = 0 ∨ c.floor ≤ 6 ∨ nodes.length = 1

theorem between_mem_tier : .between ∈ OperatorTable.standard.tier 6 := by
  decide

theorem and_mem_tier : .and ∈ OperatorTable.standard.tier 7 := by
  decide

/-! ## Items that are shown -/

/-- Items of the category, with the nodes that they add. A single node is an atom. -/
structure Shows (c : Category) (w : List Item) (e : Expr) (nodes : List Node) : Prop where
  adds : Adds w nodes
  derives : Derives .standard c w e
  atom : nodes.length = 1 → Derives .standard (.level 0) w e

/-- The items add the nodes, and the text of the nodes is read as items that show the same. -/
structure Redisplays (c : Category) (w : List Item) (e : Expr) (nodes : List Node)
    (ks : List Token.Kind) : Prop where
  adds : Adds w nodes
  ne_nil : nodes ≠ []
  lexes : Lexes (row nodes) ks True
  reads : ∀ {state : Tagging} {tokens : List Token}, state.Admits w → state.Calm c nodes →
    tokens.map Token.kind = ks →
      ∃ w', Run state tokens (state.extend w') ∧ (state.extend w').lacksOperand = false ∧
        Shows c w' e nodes

variable {c : Category} {u v w : List Item} {e x y low high : Expr} {nodes nodes' : List Node}
  {ks ks' : List Token.Kind} {op : Operator} {span : Span} {k : Nat}

/-! ### Operands and lists -/

theorem exists_redisplays_operand {x : Operand} (h : x.WellFormed false) (span : Span) :
    ∃ ks, Redisplays (.level 0) [.operand x span] (.operand x) [.operand x] ks := by
  obtain ⟨k, hlex, hstep⟩ := h.exists_kind
  refine ⟨[k], adds_singleton fun _ => rfl, by simp, hlex, fun {state tokens} hs _ ht => ?_⟩
  obtain ⟨token, rfl, hk⟩ := List.map_eq_singleton_iff.1 ht
  exact ⟨[.operand x token.span], run_singleton (hstep _ _ hs.capture hk), rfl,
    adds_singleton fun _ => rfl, .operand, fun _ => .operand⟩

theorem exists_redisplays_list {elements : List Element}
    (h : (Expr.list (Element.toExprs elements)).WellFormed true) (span : Span) :
    ∃ ks, Redisplays (.level 0) [.list elements span] (.list (Element.toExprs elements))
      [.list (Element.toNodes elements)] ks := by
  have hleaf := h.shaped.leaf
  have hlegible : ∀ x ∈ (Expr.list (Element.toExprs elements)).leaves, x.Quotes ∧ x.Whole := by
    intro x hx
    obtain ⟨listed, hw⟩ := hleaf x hx
    exact x.legible_iff.1 hw.legible.2.1
  have hshape := h.shaped.imp fun x _ listed (hx : x.WellFormed listed) => hx.legible.1
  have hrow : row [.list (Element.toNodes elements)] =
      (Expr.list (Element.toExprs elements)).write := by
    rw [row_singleton, ← Element.layoutAll_toExprs, ← Expr.layout, Expr.write_layout]
    rfl
  refine ⟨(Expr.list (Element.toExprs elements)).kinds, adds_singleton fun _ => rfl, by simp, ?_,
    fun {state tokens} hs _ ht => ?_⟩
  · rw [hrow]
    exact (Expr.lexes_write hshape).congr (iff_of_true (fun x hx => (hlegible x hx).1) trivial)
  · obtain ⟨elements', span', hrun, hsame⟩ := exists_run_list hs.capture (hs.list _ _ rfl) hshape
      (fun x hx => (hlegible x hx).2) ht
    have heq := Expr.list.inj (Expr.eq_of_same (hsame.2 h.regular) hleaf)
    have hnodes : Element.toNodes elements' = Element.toNodes elements := by
      rw [← Element.layoutAll_toExprs, heq, Element.layoutAll_toExprs]
    have hd : Derives .standard (.level 0) [.list elements' span']
        (.list (Element.toExprs elements)) := heq ▸ .list
    refine ⟨[.list elements' span'], hrun, rfl, ?_, hd, fun _ => hd⟩
    rw [← hnodes]
    exact adds_singleton fun _ => rfl

/-! ### Parentheses -/

theorem redisplays_empty (start stop : Span) :
    Redisplays (.level 0) [.opening start, .closing stop] (.list []) [.group []]
      (Expr.enclosed []) := by
  have hadds (start stop : Span) : Adds [.opening start, .closing stop] [.group []] := fun _ => rfl
  have hnil : Lexes [] [] True := Cuts.lexes fun offset rest => ⟨offset, rfl⟩
  refine ⟨hadds _ _, by simp, ?_, fun {state tokens} hs _ ht => ?_⟩
  · rw [row_singleton, write_group]
    exact Expr.lexes_parenthesized hnil
  · obtain ⟨opening, ts, closing, rfl, ho, hts, hc⟩ := exists_of_enclosed ht
    obtain rfl := List.map_eq_nil_iff.1 hts
    have hready : state.Ready := ⟨hs.capture, hs.lacksOperand, hs.opening _ rfl⟩
    exact ⟨[.opening opening.span, .closing closing.span],
      .cons (hready.step_opening ho) (run_singleton (hready.step_closing [] hc)), rfl,
      hadds _ _, .empty, fun _ => .empty⟩

/-- Parentheses around a single node are left out, and those around others stay. -/
theorem exists_redisplays_group {start stop : Span}
    (hchain : (Item.opening start :: w).IsChain Item.Adjoins)
    (h : Redisplays top w e nodes ks) :
    ∃ nodes ks, Redisplays (.level 0) (.opening start :: w ++ [.closing stop]) e nodes ks := by
  by_cases hlen : nodes.length = 1
  · obtain ⟨node, rfl⟩ := List.length_eq_one_iff.1 hlen
    refine ⟨[node], ks, h.adds.group _ _, by simp, h.lexes, fun {state tokens} hs _ ht => ?_⟩
    have hin : state.afterIn = false := hs.opening start rfl
    have hadmits : state.Admits w :=
      admits_of_chain hs.capture hs.lacksOperand (by simp [hin]) hchain
    obtain ⟨w', hr, hl, hshows⟩ := h.reads hadmits (.inr (.inr hlen)) ht
    exact ⟨w', hr, hl, hshows.adds, hshows.atom hlen, hshows.atom⟩
  · have hcollapse : collapse nodes = .group nodes := by
      unfold collapse
      split
      · exact absurd rfl hlen
      · rfl
    refine ⟨[.group nodes], Expr.enclosed ks, hcollapse ▸ h.adds.group _ _, by simp, ?_,
      fun {state tokens} hs _ ht => ?_⟩
    · rw [row_singleton, write_group]
      exact Expr.lexes_parenthesized h.lexes
    · obtain ⟨opening, ts, closing, rfl, ho, hts, hc⟩ := exists_of_enclosed ht
      have hready : state.Ready := ⟨hs.capture, hs.lacksOperand, hs.opening start rfl⟩
      have hadmits : (state.enter opening.span).Admits w :=
        admits_of_chain hs.capture rfl (by simp [Tagging.enter, afterIn, Tagging.push]) hchain
      obtain ⟨w', hr, -, hshows⟩ := h.reads hadmits (.inl rfl) hts
      have hd : Derives .standard (.level 0)
          (.opening opening.span :: w' ++ [.closing closing.span]) e := .group hshows.derives
      refine ⟨_, .cons (hready.step_opening ho)
        (hr.append (run_singleton (hready.step_closing w' hc))), ?_,
        hcollapse ▸ hshows.adds.group _ _, hd, fun _ => hd⟩
      simp [extend, lacksOperand]

/-! ### Operations -/

theorem exists_redisplays_unary (hm : op ∈ OperatorTable.standard.tier k)
    (hp : op.isPrefix = true) (hchain : (Item.operator op span :: w).IsChain Item.Adjoins)
    (h : Redisplays (.operand k) w e nodes ks) :
    ∃ nodes ks, Redisplays (.operand k) (.operator op span :: w) (.operation op [e]) nodes ks := by
  have hne {op' : Operator} (h : op'.isPrefix = false) : op ≠ op' := by
    rintro rfl
    simp [h] at hp
  obtain ⟨kind, hlex, hstep⟩ :=
    Operator.exists_kind (OperatorTable.mem_tiers_iff_exists_tier.2 ⟨k, hm⟩) (hne (by decide))
  refine ⟨.operator op :: nodes, kind :: ks, h.adds.operator _ _, by simp,
    lexes_row_cons h.ne_nil hlex h.lexes,
    fun {state tokens} hs hcalm ht => ?_⟩
  obtain ⟨token, ts, rfl, hk, hts⟩ := List.map_eq_cons_iff.1 ht
  have hrun := hstep state token hs.capture (fun h => absurd h (hne (by decide)))
    (hs.lacksOperand.trans hp.symm) hk
  have hcalm : (state.push (.operator op token.span)).Calm (.operand k) nodes := by
    rcases hcalm with hcalm | hcalm | hcalm
    · exact .inl hcalm
    · exact .inr (.inl hcalm)
    · simp [h.ne_nil] at hcalm
  obtain ⟨w', hr, hl, hshows⟩ := h.reads (admits_operator hs.capture hchain _) hcalm hts
  rw [push_extend] at hr hl
  refine ⟨_, .cons hrun hr, hl, hshows.adds.operator _ _, .unary hm hp hshows.derives,
    fun hlen => ?_⟩
  simp [h.ne_nil] at hlen

theorem exists_redisplays_binary (hm : op ∈ OperatorTable.standard.tier k)
    (ha : op.arity = .binary) (he : Expr.binary? op x y = some e) (hu : u ≠ [])
    (hchain : (Item.operator op span :: w).IsChain Item.Adjoins)
    (hx : Redisplays (.level (k + 1)) u x nodes ks) (hy : Redisplays (.operand k) w y nodes' ks') :
    ∃ nodes ks, Redisplays (.level (k + 1)) (u ++ .operator op span :: w) e nodes ks := by
  have hp : op.isPrefix = false := by simp [Operator.isPrefix, ha]
  have hb : op ≠ .between := by
    rintro rfl
    cases ha
  obtain ⟨kind, hlex, hstep⟩ :=
    Operator.exists_kind (OperatorTable.mem_tiers_iff_exists_tier.2 ⟨k, hm⟩) hb
  have hlen : (nodes ++ .operator op :: nodes').length ≠ 1 := by
    have := List.length_pos_iff.2 hx.ne_nil
    simp only [List.length_append, List.length_cons]
    omega
  refine ⟨nodes ++ .operator op :: nodes', ks ++ kind :: ks', hx.adds.append (hy.adds.operator _ _),
    by simp, ?_, fun {state tokens} hs hcalm ht => ?_⟩
  · exact lexes_row_append hx.ne_nil (by simp) hx.lexes
      (lexes_row_cons hy.ne_nil hlex hy.lexes)
  obtain ⟨ts, rest, rfl, hts, ht⟩ := List.map_eq_append_iff.1 ht
  obtain ⟨token, ts', rfl, hk, hts'⟩ := List.map_eq_cons_iff.1 ht
  have hcalm : state.waiting = 0 ∨ k + 1 ≤ 6 := hcalm.imp id fun h => h.resolve_right hlen
  have hand : op = .and → state.waiting = 0 := by
    rintro rfl
    have := OperatorTable.tier_unique hm and_mem_tier
    omega
  obtain ⟨u', hr, hl, hshows⟩ := hx.reads (hs.append hu) (hcalm.imp id .inl) hts
  have hrun := hstep (state.extend u') token hs.capture hand (hl.trans hp.symm) hk
  have hcalm' : ((state.extend u').push (.operator op token.span)).Calm (.operand k) nodes' :=
    hcalm.imp id fun h => .inl (Nat.le_of_succ_le h)
  have hcapture : (state.extend u').capture = none := hs.capture
  have hadmits := admits_operator hcapture hchain token.span
  obtain ⟨w', hr', hl', hshows'⟩ := hy.reads hadmits hcalm' hts'
  rw [extend_push_extend] at hr' hl'
  exact ⟨_, hr.append (.cons hrun hr'), hl', hshows.adds.append (hshows'.adds.operator _ _),
    .binary hm ha hshows.derives hshows'.derives he, fun h => absurd h hlen⟩

theorem exists_redisplays_between {stop : Span} {nodes'' : List Node} {ks'' : List Token.Kind}
    (hm : .between ∈ OperatorTable.standard.tier k) (hu : u ≠ [])
    (hchain : (Item.operator .between span :: v).IsChain Item.Adjoins)
    (hchain' : (Item.separator stop :: w).IsChain Item.Adjoins)
    (hx : Redisplays (.level (k + 1)) u x nodes ks)
    (hlow : Redisplays (.operand k) v low nodes' ks')
    (hhigh : Redisplays (.operand k) w high nodes'' ks'') :
    ∃ nodes ks, Redisplays (.level (k + 1))
      (u ++ .operator .between span :: v ++ .separator stop :: w)
      (.operation .between [x, low, high]) nodes ks := by
  obtain rfl : k = 6 := OperatorTable.tier_unique hm between_mem_tier
  have hlen : (nodes ++ .operator .between :: nodes' ++ .separator :: nodes'').length ≠ 1 := by
    have := List.length_pos_iff.2 hx.ne_nil
    simp only [List.length_append, List.length_cons]
    omega
  have hbetween : Lexes (Node.operator .between).write [Operator.between.kind] True := by
    rw [write]
    exact Operator.lexes_symbol (by decide) (by decide)
  have hand : Lexes Node.separator.write [Operator.and.kind] True := by
    have hlex : Lexes Operator.and.symbol.toList [Operator.and.kind] True :=
      Operator.lexes_symbol (by decide) (by decide)
    rwa [write]
  refine ⟨nodes ++ .operator .between :: nodes' ++ .separator :: nodes'',
    ks ++ Operator.between.kind :: ks' ++ Operator.and.kind :: ks'',
    (hx.adds.append (hlow.adds.operator _ _)).append (hhigh.adds.separator _), by simp, ?_,
    fun {state tokens} hs hcalm ht => ?_⟩
  · have hfront := lexes_row_append hx.ne_nil (by simp) hx.lexes
      (lexes_row_cons hlow.ne_nil hbetween hlow.lexes)
    exact lexes_row_append (by simp) (by simp) hfront
      (lexes_row_cons hhigh.ne_nil hand hhigh.lexes)
  obtain ⟨front, rest, rfl, hfront, ht⟩ := List.map_eq_append_iff.1 ht
  obtain ⟨separator, ts'', rfl, hk', hts''⟩ := List.map_eq_cons_iff.1 ht
  obtain ⟨ts, rest, rfl, hts, ht⟩ := List.map_eq_append_iff.1 hfront
  obtain ⟨between, ts', rfl, hk, hts'⟩ := List.map_eq_cons_iff.1 ht
  -- the category is that of the `BETWEEN` itself, so no other one waits
  have hw : state.waiting = 0 := hcalm.resolve_right fun h =>
    h.elim (fun hfloor => absurd hfloor (by decide)) hlen
  rw [List.append_assoc] at hs
  obtain ⟨u', hr, hl, hshows⟩ := hx.reads (hs.append hu) (.inl hw) hts
  have hcapture : ({ state.extend u' with waiting := 1 } : Tagging).capture = none := hs.capture
  have hstep : step .standard (state.extend u') between = .ok _ :=
    step_between hs.capture hw hl hk
  have hadmits := admits_operator hcapture hchain between.span
  obtain ⟨v', hrv, -, hshowsv⟩ := hlow.reads hadmits (.inr (.inl (Nat.le_refl 6))) hts'
  have hstep' : step .standard
      (({ state.extend u' with waiting := 1 }.push (.operator .between between.span)).extend v')
      separator = .ok _ := step_separator hs.capture rfl hk'
  have hmid : { ({ state.extend u' with waiting := 1 }.push
      (.operator .between between.span)).extend v' with waiting := 0 } =
        state.extend (u' ++ .operator .between between.span :: v') := by
    simp [extend, Tagging.push, hw]
  rw [hmid] at hstep'
  have hadmits' : ((state.extend (u' ++ .operator .between between.span :: v')).push
      (.separator separator.span)).Admits w :=
    admits_of_chain hs.capture rfl (by simp [afterIn, Tagging.push]) hchain'
  obtain ⟨w', hrw, hlw, hshowsw⟩ := hhigh.reads hadmits' (.inl hw) hts''
  rw [extend_push_extend] at hrw hlw
  exact ⟨_, (hr.append (.cons hstep hrv)).append (.cons hstep' hrw), hlw,
    (hshows.adds.append (hshowsv.adds.operator _ _)).append (hshowsw.adds.separator _),
    .between hm hshows.derives hshowsv.derives hshowsw.derives, fun h => absurd h hlen⟩

/-! ### Derivations -/

theorem Redisplays.weaken {c' : Category} (h : Redisplays c w e nodes ks)
    (hfloor : c.floor ≤ c'.floor)
    (hd : ∀ w', Derives .standard c w' e → Derives .standard c' w' e) :
    Redisplays c' w e nodes ks := by
  refine ⟨h.adds, h.ne_nil, h.lexes, fun {state tokens} hs hcalm ht => ?_⟩
  have hcalm : state.Calm c nodes := hcalm.imp id fun h => h.imp (hfloor.trans ·) id
  obtain ⟨w', hr, hl, hshows⟩ := h.reads hs hcalm ht
  exact ⟨w', hr, hl, hshows.adds, hd w' hshows.derives, hshows.atom⟩

/-- What the grammar derives is shown in a form that is read again. -/
theorem Grammar.Derives.exists_redisplays (h : Derives .standard c w e)
    (hchain : w.IsChain Item.Adjoins) (hl : ∀ item ∈ w, item.Legible) :
    ∃ nodes ks, Redisplays c w e nodes ks := by
  induction h with
  | @operand x span =>
    have hx : x.WellFormed false := hl (.operand x span) (by simp)
    exact ⟨_, exists_redisplays_operand hx span⟩
  | @list elements span =>
    have hes : (Expr.list (Element.toExprs elements)).WellFormed true :=
      hl (.list elements span) (by simp)
    exact ⟨_, exists_redisplays_list hes span⟩
  | empty => exact ⟨_, _, redisplays_empty _ _⟩
  | @group start stop w e _ ih =>
    have hopening : (Item.opening start :: w).IsChain Item.Adjoins := hchain.left_of_append
    obtain ⟨nodes, ks, hw⟩ := ih hopening.tail fun item hm => hl item (by simp [hm])
    exact exists_redisplays_group hopening hw
  | bare _ ih =>
    obtain ⟨nodes, ks, hw⟩ := ih hchain hl
    exact ⟨nodes, ks, hw.weaken (Nat.le_refl _) fun _ => .bare⟩
  | single _ ih =>
    obtain ⟨nodes, ks, hw⟩ := ih hchain hl
    exact ⟨nodes, ks, hw.weaken (Nat.le_succ _) fun _ => .single⟩
  | unary hm hp _ ih =>
    obtain ⟨nodes, ks, hw⟩ := ih hchain.tail (List.forall_mem_cons.1 hl).2
    exact exists_redisplays_unary hm hp hchain hw
  | binary hm ha hu _ he ihx ihy =>
    rw [List.forall_mem_append, List.forall_mem_cons] at hl
    have hright := hchain.right_of_append
    obtain ⟨nodes, ks, hx⟩ := ihx hchain.left_of_append hl.1
    obtain ⟨nodes', ks', hy⟩ := ihy hright.tail hl.2.2
    exact exists_redisplays_binary hm ha he hu.ne_nil hright hx hy
  | between hm hu _ _ ihx ihlow ihhigh =>
    simp only [List.forall_mem_append, List.forall_mem_cons] at hl
    have hfront := hchain.left_of_append
    have hright := hchain.right_of_append
    obtain ⟨nodes, ks, hx⟩ := ihx hfront.left_of_append hl.1.1
    obtain ⟨nodes', ks', hlow⟩ := ihlow hfront.right_of_append.tail hl.1.2.2
    obtain ⟨nodes'', ks'', hhigh⟩ := ihhigh hright.tail hl.2.2
    exact exists_redisplays_between hm hu.ne_nil hfront.right_of_append hright hx hlow hhigh

/-! ## Clauses -/

namespace Parser

variable {clause : String} {r : Parsed}

/-- Tokens that are read as an expression are those of a clause, which is shown like the items. -/
theorem parse_of_shows {node : Node}
    (hr : Run initial (standard.tokenize clause) (initial.extend w))
    (hs : Shows (.level 0) w e [node]) :
    standard.parse clause = .ok ⟨standard.tokenize clause, e.layout, node, e⟩ := by
  let stop := clause.utf8ByteSize
  have hi : standard.items clause =
      .ok (.opening (.point 0) :: w ++ [.closing (.point stop)]) := by
    refine bind_eq_ok_iff.2 ⟨_, hr, ?_⟩
    simp [finish, initial, extend, Tagging.push, stop]
  have hc : IsClause .standard (.opening (.point 0) :: w ++ [.closing (.point stop)]) e :=
    ⟨⟨_, _, w, rfl⟩, .group (hs.derives.level_mono (Nat.zero_le _))⟩
  obtain ⟨x, hx, hlaid, rfl⟩ := Phrase.exists_ofItems hc
  have hshown : Node.ofItems (.opening (.point 0) :: w ++ [.closing (.point stop)]) = node :=
    (hs.adds.group _ _).ofItems
  have hnode : x.node = x.expr.layout := hlaid
  exact parse_eq_ok_iff.2 ⟨_, x, hi, hx, by rw [hshown, hnode]⟩

/-- The form in which a clause is shown, with its own parentheses, is a clause with the same forms
and the same tree, as long as no token is a float or a string that cannot be read back. -/
theorem exists_parse_display (h : standard.parse clause = .ok r)
    (hd : ∀ token ∈ r.tokens, token.kind.Durable) :
    ∃ r', standard.parse r.display.render = .ok r' ∧ r'.display = r.display ∧
      r'.expression = r.expression ∧ r'.tree = r.tree := by
  obtain ⟨items, x, hi, hx, rfl⟩ := parse_eq_ok_iff.1 h
  obtain ⟨ws, hws, horigin⟩ := Item.exists_origin_of_ofTokens hi
  obtain ⟨body, hbody, hb, -⟩ := Item.balanced_of_ofTokens hi
  have hlegible : ∀ item ∈ items, item.Legible := by
    rw [hws, List.forall_mem_append]
    exact ⟨horigin.legible (Lexicon.lexical_tokenize clause) hd, by simp [Item.Legible]⟩
  have hchain : items.IsChain Item.Adjoins := by
    rw [hws]
    refine horigin.chain.append (.singleton _) fun earlier _ later hl => ?_
    rw [List.head?_cons, Option.mem_some_iff] at hl
    subst hl
    exact ⟨by simp, by simp, by simp⟩
  subst hbody
  obtain ⟨hclause, hlaid⟩ := Phrase.isClause_of_ofItems hb hx
  obtain ⟨nodes, ks, hshown⟩ := hclause.2.exists_redisplays hchain hlegible
  -- the clause is one group
  obtain ⟨node, hgroup, -⟩ :=
    exists_push_of_group {} (.point 0) (.point clause.utf8ByteSize) (exists_foldl hb)
  obtain rfl : nodes = [node] := by
    have hfold := (hshown.adds {}).symm.trans hgroup
    simpa [Grouping.push] using congrArg (List.reverse ∘ Grouping.inner) hfold
  have hdisplay := hshown.adds.ofItems
  have hkinds : (standard.tokenize node.render).map Token.kind = ks := by
    have hlex := hshown.lexes.kindsAt_eq trivial 0
    rw [row_singleton, ← String.toList_ofList (l := node.write)] at hlex
    exact hlex
  have hcalm : initial.Calm (.level 0) [node] := .inl rfl
  obtain ⟨w, hr, -, hshows⟩ := hshown.reads ⟨rfl, rfl, by simp, fun _ _ => rfl⟩ hcalm hkinds
  subst hdisplay
  exact ⟨_, parse_of_shows hr hshows, rfl, hlaid.symm, rfl⟩

/-- In this clause most parentheses can be left out, but not those around the sum and around the
bound of the first `BETWEEN`, nor those of the list. -/
theorem parse_display_between_and_in :
    ∃ r, standard.parse
        "((a)) * (b + -(c)) between (x BETWEEN 1 and 2) AND ((d)) or e IN (-1, \"'\", ((in)))" =
          .ok r ∧
      r.display.render =
        "(a * (b + - c) BETWEEN (x BETWEEN 1 AND 2) AND d OR e IN (-1, \"'\", (in)))" ∧
      ∃ r', standard.parse r.display.render = .ok r' ∧ r'.display = r.display ∧
        r'.expression = r.expression ∧ r'.tree = r.tree := by
  obtain ⟨r, hr, hp⟩ := exists_eq_ok_of_any
    (x := standard.parse
      "((a)) * (b + -(c)) between (x BETWEEN 1 and 2) AND ((d)) or e IN (-1, \"'\", ((in)))")
    (p := fun r => r.tokens.all (fun token => decide token.kind.Durable) && r.display.render ==
      "(a * (b + - c) BETWEEN (x BETWEEN 1 AND 2) AND d OR e IN (-1, \"'\", (in)))")
    (by decide +kernel)
  rw [Bool.and_eq_true_iff, List.all_eq_true, beq_iff_eq] at hp
  exact ⟨r, hr, hp.2, exists_parse_display hr fun token ht => of_decide_eq_true (hp.1 token ht)⟩

end Parser

end WhereClause
