import WhereClause.Proofs.Grammar
import WhereClause.Proofs.Item.Recapture

/-!
# Reading the text of a tree

Outside of the lists after `IN`, the tokens of a tree are read as items from which the grammar
derives a tree again. It is the same tree exactly if the given one is regular: a number with a sign
comes out as an operation, and a list with one element as that element.

An operation that is part of another tree stands in parentheses, so the tokens of a part are one
operand of the tightest tier, and precedence plays no role in how the parts are put together.
-/

namespace WhereClause

open Grammar

namespace Tagging

variable {state : Tagging} {token : Token} {op : Operator} {span : Span}

/-! ## States -/

/-- The state after more items. -/
def extend (state : Tagging) (w : List Item) : Tagging :=
  { state with items := w.reverse ++ state.items }

/-- An operand follows, and no literal list. -/
structure Ready (state : Tagging) : Prop where
  capture : state.capture = none
  lacksOperand : state.lacksOperand = true
  afterIn : state.afterIn = false

theorem push_extend (state : Tagging) (item : Item) (w : List Item) :
    (state.push item).extend w = state.extend (item :: w) := by
  simp [extend, push]

theorem extend_push_extend (state : Tagging) (u w : List Item) (item : Item) :
    ((state.extend u).push item).extend w = state.extend (u ++ item :: w) := by
  simp [extend, push]

theorem ready_operator (hc : state.capture = none) (hop : op ≠ .isIn) :
    (state.push (.operator op span)).Ready :=
  ⟨hc, rfl, by simpa [afterIn, push] using hop⟩

/-! ## Operators -/

/-- An operator of the table has its meaning where its operands are missing or given. -/
theorem operatorAt?_symbol (hop : op ∈ OperatorTable.standard.tiers.flatten)
    (hl : state.lacksOperand = op.isPrefix) :
    operatorAt? .standard state op.symbol = some op := by
  have hall : ∀ op ∈ OperatorTable.standard.tiers.flatten,
      (OperatorTable.standard.get? op.symbol).map (fun found =>
        if found = .subtract ∧ op.isPrefix = true then
          OperatorTable.standard.negation?.getD .subtract
        else found) = some op := by
    decide +kernel
  rw [operatorAt?, hl]
  exact hall op hop

theorem readWord_symbol (hop : op ∈ OperatorTable.standard.tiers.flatten) (hb : op ≠ .between)
    (hw : op = .and → state.waiting = 0) (hl : state.lacksOperand = op.isPrefix) :
    readWord .standard state op.symbol span = state.push (.operator op span) := by
  have hall : ∀ op ∈ OperatorTable.standard.tiers.flatten, op ≠ .and →
      Text.eqIgnoringAsciiCase op.symbol "AND" = false := by decide +kernel
  have hand : (Text.eqIgnoringAsciiCase op.symbol "AND" && 0 < state.waiting) = false := by
    by_cases h : op = .and
    · rw [hw h, decide_eq_false (Nat.lt_irrefl 0), Bool.and_false]
    · rw [hall op hop h, Bool.false_and]
  unfold readWord
  rw [hand, operatorAt?_symbol hop hl]
  cases op with
  | between => contradiction
  | _ => rfl

theorem step_eq_readToken (hc : state.capture = none) :
    step .standard state token = readToken .standard state token := by
  unfold step
  rw [hc]

theorem step_eq_readWord (hc : state.capture = none) (hk : token.kind = op.kind) :
    step .standard state token = .ok (readWord .standard state op.symbol token.span) := by
  rw [step_eq_readToken hc]
  unfold readToken
  by_cases hs : Lexicon.standard.symbols.contains op.symbol.toList = true
  · rw [hk, Operator.kind, if_pos hs]
  · rw [hk, Operator.kind, if_neg hs]

theorem step_operator (hop : op ∈ OperatorTable.standard.tiers.flatten) (hb : op ≠ .between)
    (hc : state.capture = none) (hw : op = .and → state.waiting = 0)
    (hl : state.lacksOperand = op.isPrefix) (hk : token.kind = op.kind) :
    step .standard state token = .ok (state.push (.operator op token.span)) := by
  rw [step_eq_readWord hc hk, readWord_symbol hop hb hw hl]

theorem step_comma (hc : state.capture = none) (hl : state.lacksOperand = false)
    (hk : token.kind = .punctuation ',') :
    step .standard state token = .ok (state.push (.operator .comma token.span)) := by
  have hr : readWord .standard state Operator.comma.symbol token.span = _ :=
    readWord_symbol (by decide) (by decide) (by simp) hl
  rw [step_eq_readToken hc, ← hr]
  unfold readToken
  simp only [hk]
  rfl

theorem step_between (hc : state.capture = none) (hw : state.waiting = 0)
    (hl : state.lacksOperand = false) (hk : token.kind = Operator.between.kind) :
    step .standard state token =
      .ok ({ state with waiting := 1 }.push (.operator .between token.span)) := by
  rw [step_eq_readWord hc hk]
  unfold readWord
  rw [hw, operatorAt?_symbol (by decide) hl]
  rfl

theorem step_separator (hc : state.capture = none) (hw : state.waiting = 1)
    (hk : token.kind = Operator.and.kind) :
    step .standard state token =
      .ok ({ state with waiting := 0 }.push (.separator token.span)) := by
  rw [step_eq_readWord hc hk]
  unfold readWord
  rw [hw]
  rfl

/-! ## Parentheses -/

/-- The state after an opening parenthesis. -/
def enter (state : Tagging) (span : Span) : Tagging :=
  { state with groups := ⟨span, state.waiting⟩ :: state.groups, waiting := 0 }.push (.opening span)

theorem Ready.enter (h : state.Ready) (span : Span) : (state.enter span).Ready :=
  ⟨h.capture, rfl, rfl⟩

theorem Ready.step_opening (h : state.Ready) (hk : token.kind = .punctuation '(') :
    step .standard state token = .ok (state.enter token.span) := by
  rw [step_eq_readToken h.capture]
  unfold readToken
  simp only [hk, h.afterIn, Bool.false_eq_true, if_false]
  rfl

theorem Ready.step_closing (h : state.Ready) (w : List Item) (hk : token.kind = .punctuation ')') :
    step .standard ((state.enter span).extend w) token =
      .ok (state.extend (.opening span :: w ++ [.closing token.span])) := by
  have hc : ((state.enter span).extend w).capture = none := h.capture
  rw [step_eq_readToken hc]
  unfold readToken
  simp only [hk]
  simp [readClosing, Tagging.enter, extend, push]

/-! ## Readings -/

/-- The tokens are read as items of the category, from which the tree is derived. -/
def Reads (c : Category) (state : Tagging) (tokens : List Token) (e : Expr) : Prop :=
  ∃ w, Run state tokens (state.extend w) ∧ (state.extend w).lacksOperand = false ∧
    Derives .standard c w e

/-- The category of whole expressions. -/
def top : Category :=
  .level OperatorTable.standard.tiers.length

theorem Reads.single {item : Item} {e : Expr}
    (h : step .standard state token = .ok (state.push item))
    (hl : (state.push item).lacksOperand = false) (hd : Derives .standard (.level 0) [item] e) :
    Reads (.operand 0) state [token] e :=
  ⟨[item], run_singleton h, hl, .bare hd⟩

theorem Reads.weaken {k : Nat} {tokens : List Token} {e : Expr}
    (h : Reads (.operand k) state tokens e) (hk : k < OperatorTable.standard.tiers.length) :
    Reads top state tokens e := by
  obtain ⟨w, hr, hl, hd⟩ := h
  exact ⟨w, hr, hl, hd.level_of_operand hk⟩

/-- Parentheses make one operand of any expression. -/
theorem Reads.group {opening closing : Token} {tokens : List Token} {e : Expr} (hs : state.Ready)
    (ho : opening.kind = .punctuation '(') (hc : closing.kind = .punctuation ')')
    (h : Reads top (state.enter opening.span) tokens e) :
    Reads (.operand 0) state (opening :: (tokens ++ [closing])) e := by
  obtain ⟨w, hr, -, hd⟩ := h
  refine ⟨.opening opening.span :: w ++ [.closing closing.span], ?_, ?_, .bare (.group hd)⟩
  · exact .cons (hs.step_opening ho) (hr.append (run_singleton (hs.step_closing w hc)))
  · simp [extend, lacksOperand]

/-! ## Operations -/

section Operations

variable {operator : Token} {ts ts' ts'' : List Token} {x y low high : Expr}

theorem reads_unary {k : Nat} (hs : state.Ready) (hm : op ∈ OperatorTable.standard.tier k)
    (ha : op.arity = .unary) (hk : operator.kind = op.kind)
    (hx : Reads (.operand 0) (state.push (.operator op operator.span)) ts x) :
    Reads (.operand k) state (operator :: ts) (.operation op [x]) := by
  obtain ⟨w, hr, hl, hd⟩ := hx
  have hop := OperatorTable.mem_tiers_iff_exists_tier.2 ⟨k, hm⟩
  have hp : op.isPrefix = true := by simp [Operator.isPrefix, ha]
  have hne {op' : Operator} (h : op'.arity ≠ .unary) : op ≠ op' := by
    rintro rfl
    exact h ha
  have hstep := step_operator hop (hne (by decide)) hs.capture
    (fun h => absurd h (hne (by decide))) (hs.lacksOperand.trans hp.symm) hk
  rw [push_extend] at hr hl
  exact ⟨_, .cons hstep hr, hl, .unary hm hp (hd.operand_mono (Nat.zero_le k))⟩

/-- An operator between its operands, of which the first has been read. -/
theorem reads_binary {u : List Item} {e : Expr} (hc : state.capture = none)
    (hw : state.waiting = 0) (hop : op ∈ OperatorTable.standard.tiers.flatten)
    (ha : op.arity = .binary) (hk : operator.kind = op.kind) (hr : Run state ts (state.extend u))
    (hl : (state.extend u).lacksOperand = false) (hd : Derives .standard (.operand 0) u x)
    (hy : Reads (.operand 0) ((state.extend u).push (.operator op operator.span)) ts' y)
    (he : Expr.binary? op x y = some e) : Reads top state (ts ++ operator :: ts') e := by
  obtain ⟨w, hr', hl', hd'⟩ := hy
  obtain ⟨k, hm⟩ := OperatorTable.mem_tiers_iff_exists_tier.1 hop
  have hp : op.isPrefix = false := by simp [Operator.isPrefix, ha]
  have hb : op ≠ .between := by
    rintro rfl
    cases ha
  have hstep : step .standard (state.extend u) operator = .ok _ :=
    step_operator hop hb hc (fun _ => hw) (hl.trans hp.symm) hk
  rw [extend_push_extend] at hr' hl'
  have hbin : Derives .standard (.level (k + 1)) (u ++ .operator op operator.span :: w) e :=
    .binary hm ha (hd.level_of_operand (Nat.succ_pos k)) (hd'.operand_mono (Nat.zero_le k)) he
  exact ⟨_, hr.append (.cons hstep hr'), hl', hbin.level_mono (OperatorTable.lt_of_mem_tier hm)⟩

/-- A `BETWEEN` with its separator, of which the first two operands have been read. -/
theorem reads_between {u v : List Item} {separator : Token} (hc : state.capture = none)
    (hw : state.waiting = 0) (hk : operator.kind = Operator.between.kind)
    (hk' : separator.kind = Operator.and.kind) (hr : Run state ts (state.extend u))
    (hl : (state.extend u).lacksOperand = false) (hd : Derives .standard (.operand 0) u x)
    (hv : Run ({ state.extend u with waiting := 1 }.push (.operator .between operator.span)) ts'
      (({ state.extend u with waiting := 1 }.push (.operator .between operator.span)).extend v))
    (hdv : Derives .standard (.operand 0) v low)
    (hh : Reads (.operand 0)
      ((state.extend (u ++ .operator .between operator.span :: v)).push (.separator separator.span))
      ts'' high) :
    Reads top state (ts ++ operator :: ts' ++ separator :: ts'')
      (.operation .between [x, low, high]) := by
  obtain ⟨w, hrw, hlw, hdw⟩ := hh
  obtain ⟨k, hm⟩ : ∃ k, Operator.between ∈ OperatorTable.standard.tier k :=
    OperatorTable.mem_tiers_iff_exists_tier.1 (by decide)
  have hstep : step .standard (state.extend u) operator = .ok _ := step_between hc hw hl hk
  have hstep' : step .standard
      (({ state.extend u with waiting := 1 }.push (.operator .between operator.span)).extend v)
      separator = .ok _ := step_separator hc rfl hk'
  have hmid : { ({ state.extend u with waiting := 1 }.push
      (.operator .between operator.span)).extend v with waiting := 0 } =
        state.extend (u ++ .operator .between operator.span :: v) := by
    simp [extend, push, hw]
  rw [hmid] at hstep'
  rw [extend_push_extend] at hrw hlw
  have hb : Derives .standard (.level (k + 1))
      (u ++ .operator .between operator.span :: v ++ .separator separator.span :: w)
      (.operation .between [x, low, high]) :=
    .between hm (hd.level_of_operand (Nat.succ_pos k)) (hdv.operand_mono (Nat.zero_le k))
      (hdw.operand_mono (Nat.zero_le k))
  exact ⟨_, (hr.append (.cons hstep hv)).append (.cons hstep' hrw), hlw,
    hb.level_mono (OperatorTable.lt_of_mem_tier hm)⟩

end Operations

end Tagging

open Tagging

/-- The tokens of a tree inside of another one are read as one operand, and as the same tree exactly
if the tree is regular. -/
def Rereads (e : Expr) : Prop :=
  ∀ (state : Tagging) (tokens : List Token), state.Ready → tokens.map Token.kind = e.innerKinds →
    ∃ e', Reads (.operand 0) state tokens e' ∧
      (e'.same e = true ↔ e.regular false = true) ∧ (e.isList = false → e'.isList = false)

/-! ## Leaves -/

namespace Tagging

variable {state : Tagging} {token : Token}

theorem step_literal (hc : state.capture = none) {value : Literal} {quote : Option Char}
    (hk : token.kind = .literal value quote) :
    step .standard state token = .ok (state.push (.operand (.literal value) token.span)) := by
  rw [step_eq_readToken hc]
  unfold readToken
  simp only [hk]

theorem step_name (hc : state.capture = none) {name : String}
    (hg : OperatorTable.standard.get? name = none) (hk : token.kind = .identifier name) :
    step .standard state token = .ok (state.push (.operand (.identifier name) token.span)) := by
  have hand : Text.eqIgnoringAsciiCase name "AND" = false := by
    by_contra hand
    exact get?_and (by simpa using hand) hg
  have hr : readWord .standard state name token.span =
      state.push (.operand (.identifier name) token.span) := by
    unfold readWord
    simp [hand, operatorAt?, hg]
  rw [step_eq_readToken hc, ← hr]
  unfold readToken
  simp only [hk]

end Tagging

theorem Expr.regular_operand (x : Operand) :
    (Expr.operand x).regular false = true ↔ x.write.head? ≠ some '-' := by
  rw [regular, Bool.false_or, bne_iff_ne]

/-- A leaf that is one token. -/
theorem rereads_of_single {x y : Operand} {k : Token.Kind} (hx : x.kinds = [k])
    (hm : x.write.head? ≠ some '-') (hy : (y == x) = true)
    (hk : ∀ (state : Tagging) (token : Token), state.capture = none → token.kind = k →
      step .standard state token = .ok (state.push (.operand y token.span))) :
    Rereads (.operand x) := by
  intro state tokens hs ht
  have ht : tokens.map Token.kind = [k] := by
    rw [ht, ← hx, Expr.innerKinds, Expr.kinds]
    rfl
  obtain ⟨token, rfl, htk⟩ := List.map_eq_singleton_iff.1 ht
  refine ⟨.operand y, Reads.single (hk state token hs.capture htk) rfl .operand, ?_, fun _ => rfl⟩
  exact iff_of_true (by simpa [Expr.same] using hy) ((Expr.regular_operand x).2 hm)

theorem Operand.head?_writeString (text : String) :
    (Operand.literal (.string text)).write.head? ≠ some '-' := by
  have hq : ∀ quote ∈ quotes, quote ≠ '-' := by decide
  rw [write, writeString_eq]
  simpa using hq _ (quoteOf_mem text.toList)

theorem head?_ne_of_not_mem {text : List Char} (h : '-' ∉ text) : text.head? ≠ some '-' :=
  fun hh => h (List.mem_of_mem_head? hh)

theorem rereads_operand {x : Operand} (h : x.Readable false) (hw : x.Whole) :
    Rereads (.operand x) := by
  have hs := (Operand.spelled h).1
  generalize hx : x.kinds = ks at hs
  cases hs with
  | @string text quote =>
    exact rereads_of_single hx (Operand.head?_writeString text) (Operand.beq_string text)
      fun state token hc hk => step_literal hc hk
  | @plain value v _ _ hv hm =>
    exact rereads_of_single hx (head?_ne_of_not_mem hm) hv
      fun state token hc hk => step_literal hc hk
  | @signed value v v' _ _ _ hm _ =>
    -- the minus is read as an operator, so that the tree is an operation
    intro state tokens hs ht
    have ht : tokens.map Token.kind = [.operator "-", .literal v none] := by
      rw [ht, ← hx, Expr.innerKinds, Expr.kinds]
      rfl
    obtain ⟨minus, rest, rfl, hminus, ht⟩ := List.map_eq_cons_iff.1 ht
    obtain ⟨number, rfl, hnumber⟩ := List.map_eq_singleton_iff.1 ht
    have hneg : Operator.negate.kind = .operator "-" := if_pos (by decide)
    have hready : (state.push (.operator .negate minus.span)).Ready :=
      ready_operator hs.capture (by decide)
    have hnum : Reads (.operand 0) (state.push (.operator .negate minus.span)) [number]
        (.operand (.literal v)) :=
      .single (step_literal hready.capture hnumber) rfl .operand
    refine ⟨_, reads_unary hs (by decide) rfl (hminus.trans hneg.symm) hnum, ?_, fun _ => rfl⟩
    exact iff_of_false (by simp [Expr.same]) fun hreg => (Expr.regular_operand _).1 hreg hm
  | @broken value name k sign hs _ _ _ _ hm =>
    exact absurd hm (hw (Operand.string?_literal hs).1)
  | @name name hm hg =>
    exact rereads_of_single hx (head?_ne_of_not_mem hm) (Operand.beq_identifier name)
      fun state token hc hk => step_name hc (hg rfl) hk
  | symbol hf => cases hf

/-! ## Lists -/

namespace Expr

theorem elements_of_not_isList {e : Expr} (h : e.isList = false) : e.elements = [e] := by
  cases e with
  | list items => cases h
  | _ => rfl

theorem eq_list_of_isList {e : Expr} (h : e.isList = true) : e = .list e.elements := by
  cases e with
  | list items => rfl
  | _ => cases h

theorem same_list_of_not_isList {e : Expr} (h : e.isList = false) (items : List Expr) :
    e.same (.list items) = false := by
  cases e with
  | list items => cases h
  | _ => rfl

/-- The tokens of an expression after a comma. -/
def laterKinds (e : Expr) : List Token.Kind :=
  .punctuation ',' :: e.innerKinds

theorem separated_cons (e : Expr) (rest : List Expr) :
    separated ((e :: rest).map innerKinds) = e.innerKinds ++ rest.flatMap laterKinds := by
  induction rest generalizing e with
  | nil => simp [separated]
  | cons e' rest ih =>
    have hrest := ih e'
    rw [List.map_cons] at hrest
    rw [List.map_cons, List.map_cons, separated, hrest, List.flatMap_cons]
    rfl

end Expr

namespace Tagging

variable {state : Tagging}

/-- Commas and expressions after an expression: they are read as elements of the list that begins
with it. -/
theorem exists_reads_commas {rest : List Expr} {tokens : List Token} {u : List Item} {x : Expr}
    {k : Nat} (hm : .comma ∈ OperatorTable.standard.tier k)
    (h : ∀ e ∈ rest, Rereads e ∧ e.isList = false) (hc : state.capture = none)
    (ht : tokens.map Token.kind = rest.flatMap Expr.laterKinds)
    (hl : (state.extend u).lacksOperand = false) (hd : Derives .standard (.level (k + 1)) u x) :
    ∃ w x' ys, Run (state.extend u) tokens (state.extend w) ∧
      (state.extend w).lacksOperand = false ∧ Derives .standard (.level (k + 1)) w x' ∧
      x'.elements = x.elements ++ ys ∧ x'.isList = (x.isList || !rest.isEmpty) ∧
      (Expr.sameAll ys rest = true ↔ Expr.regularAll false rest = true) := by
  induction rest generalizing tokens u x with
  | nil =>
    obtain rfl := List.map_eq_nil_iff.1 ht
    exact ⟨u, x, [], run_nil _, hl, hd, by simp, by simp, Iff.rfl⟩
  | cons e rest ih =>
    rw [List.flatMap_cons, Expr.laterKinds, List.cons_append] at ht
    obtain ⟨comma, ts, rfl, hcomma, ht⟩ := List.map_eq_cons_iff.1 ht
    obtain ⟨ts, ts', rfl, hts, hts'⟩ := List.map_eq_append_iff.1 ht
    obtain ⟨he, hlist⟩ := h e (by simp)
    have hstep : step .standard (state.extend u) comma = .ok _ := step_comma hc hl hcomma
    have hready : ((state.extend u).push (.operator .comma comma.span)).Ready :=
      ready_operator hc (by decide)
    obtain ⟨e', ⟨v, hr, hlv, hdv⟩, hsame, hlist'⟩ := he _ ts hready hts
    rw [extend_push_extend] at hr hlv
    have hbin : Derives .standard (.level (k + 1)) (u ++ .operator .comma comma.span :: v)
        (.list (x.elements ++ e'.elements)) :=
      .binary hm rfl hd (hdv.operand_mono (Nat.zero_le k)) rfl
    obtain ⟨w, x', ys, hr', hlw, hdw, hel, hil, hall⟩ :=
      ih (fun e he => h e (List.mem_cons_of_mem _ he)) hts' hlv hbin
    refine ⟨w, x', e' :: ys, .cons hstep (hr.append hr'), hlw, hdw, ?_, ?_, ?_⟩
    · rw [hel, Expr.elements, Expr.elements_of_not_isList (hlist' hlist)]
      simp
    · rw [hil]
      simp [Expr.isList]
    · rw [Expr.sameAll, Expr.regularAll, Bool.and_eq_true_iff, Bool.and_eq_true_iff, hsame, hall]

end Tagging

theorem rereads_list {items : List Expr} (h : ∀ e ∈ items, Rereads e ∧ e.isList = false) :
    Rereads (.list items) := by
  intro state tokens hs ht
  have ht : tokens.map Token.kind = Expr.enclosed (Expr.separated (items.map Expr.innerKinds)) := by
    rw [ht, Expr.innerKinds, Expr.kinds_list]
    rfl
  obtain ⟨opening, ts, closing, rfl, ho, ht, hc⟩ := exists_of_enclosed ht
  cases items with
  | nil =>
    obtain rfl := List.map_eq_nil_iff.1 ht
    refine ⟨.list [], ⟨[.opening opening.span, .closing closing.span], ?_, rfl, .bare .empty⟩, ?_,
      by simp [Expr.isList]⟩
    · exact .cons (hs.step_opening ho) (run_singleton (hs.step_closing [] hc))
    · exact iff_of_true rfl rfl
  | cons e rest =>
    rw [Expr.separated_cons] at ht
    obtain ⟨ts, ts', rfl, hts, hts'⟩ := List.map_eq_append_iff.1 ht
    obtain ⟨k, hm⟩ : ∃ k, Operator.comma ∈ OperatorTable.standard.tier k :=
      OperatorTable.mem_tiers_iff_exists_tier.1 (by decide)
    obtain ⟨he, hlist⟩ := h e (by simp)
    have hready := hs.enter opening.span
    obtain ⟨e', ⟨u, hr, hl, hd⟩, hsame, hlist'⟩ := he _ ts hready hts
    obtain ⟨w, x', ys, hr', hlw, hdw, hel, hil, hall⟩ :=
      exists_reads_commas hm (fun e he => h e (List.mem_cons_of_mem _ he)) hready.capture hts' hl
        (hd.level_of_operand (Nat.succ_pos k))
    have hreads : Reads top (state.enter opening.span) (ts ++ ts') x' :=
      ⟨w, hr.append hr', hlw, hdw.level_mono (OperatorTable.lt_of_mem_tier hm)⟩
    refine ⟨x', .group hs ho hc hreads, ?_, by simp [Expr.isList]⟩
    rw [hlist' hlist, Bool.false_or] at hil
    rw [Expr.elements_of_not_isList (hlist' hlist)] at hel
    cases rest with
    | nil =>
      -- parentheses around one expression make no list
      rw [Expr.same_list_of_not_isList hil]
      simp [Expr.regular]
    | cons e₂ rest =>
      rw [Expr.eq_list_of_isList hil, hel, Expr.same, Expr.regular, List.singleton_append,
        Expr.sameAll, Expr.regularAll, Bool.and_eq_true_iff, hsame, hall]
      simp

/-! ## Operations -/

namespace Expr

theorem same_operation_iff {op : Operator} {xs ys : List Expr} :
    (Expr.operation op xs).same (.operation op ys) = true ↔ sameAll xs ys = true := by
  rw [same, beq_self_eq_true, Bool.true_and]

theorem binary?_eq {op : Operator} (hi : op ≠ .isIn) (hc : op ≠ .comma) (x y : Expr) :
    binary? op x y = some (.operation op [x, y]) := by
  unfold binary?
  split <;> simp_all

end Expr

section Operations

variable {state : Tagging} {tokens : List Token} {op : Operator} {x y low high : Expr}

theorem exists_reads_unary (hs : state.Ready) (hop : op ∈ OperatorTable.standard.tiers.flatten)
    (ha : op.arity = .unary) (hx : Rereads x)
    (ht : tokens.map Token.kind = op.kind :: x.innerKinds) :
    ∃ operands, Reads top state tokens (.operation op operands) ∧
      (Expr.sameAll operands [x] = true ↔ Expr.regularAll false [x] = true) := by
  obtain ⟨operator, ts, rfl, hk, hts⟩ := List.map_eq_cons_iff.1 ht
  obtain ⟨k, hm⟩ := OperatorTable.mem_tiers_iff_exists_tier.1 hop
  have hin : op ≠ .isIn := by
    rintro rfl
    cases ha
  obtain ⟨x', hr, hsame, -⟩ := hx _ ts (ready_operator hs.capture hin) hts
  refine ⟨[x'], (reads_unary hs hm ha hk hr).weaken (OperatorTable.lt_of_mem_tier hm), ?_⟩
  simpa [Expr.sameAll, Expr.regularAll] using hsame

theorem exists_reads_binary (hs : state.Ready) (hw : state.waiting = 0)
    (hop : op ∈ OperatorTable.standard.tiers.flatten) (ha : op.arity = .binary) (hi : op ≠ .isIn)
    (hc : op ≠ .comma) (hx : Rereads x) (hy : Rereads y)
    (ht : tokens.map Token.kind = x.innerKinds ++ op.kind :: y.innerKinds) :
    ∃ operands, Reads top state tokens (.operation op operands) ∧
      (Expr.sameAll operands [x, y] = true ↔ Expr.regularAll false [x, y] = true) := by
  obtain ⟨ts, rest, rfl, hts, ht⟩ := List.map_eq_append_iff.1 ht
  obtain ⟨operator, ts', rfl, hk, hts'⟩ := List.map_eq_cons_iff.1 ht
  obtain ⟨x', ⟨u, hr, hl, hd⟩, hsame, -⟩ := hx _ ts hs hts
  have hready : ((state.extend u).push (.operator op operator.span)).Ready :=
    ready_operator hs.capture hi
  obtain ⟨y', hry, hsame', -⟩ := hy _ ts' hready hts'
  refine ⟨[x', y'],
    reads_binary hs.capture hw hop ha hk hr hl hd hry (Expr.binary?_eq hi hc x' y'), ?_⟩
  simp [Expr.sameAll, Expr.regularAll, hsame, hsame']

theorem exists_reads_between (hs : state.Ready) (hw : state.waiting = 0) (hx : Rereads x)
    (hlow : Rereads low) (hhigh : Rereads high)
    (ht : tokens.map Token.kind = x.innerKinds ++ Operator.between.kind :: low.innerKinds ++
      Operator.and.kind :: high.innerKinds) :
    ∃ operands, Reads top state tokens (.operation .between operands) ∧
      (Expr.sameAll operands [x, low, high] = true ↔
        Expr.regularAll false [x, low, high] = true) := by
  obtain ⟨front, rest, rfl, hfront, ht⟩ := List.map_eq_append_iff.1 ht
  obtain ⟨separator, ts'', rfl, hk', hts''⟩ := List.map_eq_cons_iff.1 ht
  obtain ⟨ts, rest, rfl, hts, ht⟩ := List.map_eq_append_iff.1 hfront
  obtain ⟨operator, ts', rfl, hk, hts'⟩ := List.map_eq_cons_iff.1 ht
  obtain ⟨x', ⟨u, hr, hl, hd⟩, hsame, -⟩ := hx _ ts hs hts
  have hready : ({ state.extend u with waiting := 1 }.push
      (.operator .between operator.span)).Ready := ready_operator hs.capture (by decide)
  obtain ⟨low', ⟨v, hrv, -, hdv⟩, hsame', -⟩ := hlow _ ts' hready hts'
  have hready' : ((state.extend (u ++ .operator .between operator.span :: v)).push
      (.separator separator.span)).Ready := ⟨hs.capture, rfl, rfl⟩
  obtain ⟨high', hrh, hsame'', -⟩ := hhigh _ ts'' hready' hts''
  refine ⟨[x', low', high'], reads_between hs.capture hw hk hk' hr hl hd hrv hdv hrh, ?_⟩
  simp [Expr.sameAll, Expr.regularAll, hsame, hsame', hsame'']

/-- The right side of an `IN` is a literal list in the text, whatever it was in the clause. -/
theorem exists_reads_isIn {items : List Expr} (hs : state.Ready) (hw : state.waiting = 0)
    (hx : Rereads x) (hi : Expr.Shaped Operand.Readable true (.list items))
    (hwhole : ∀ x ∈ (Expr.list items).leaves, x.Whole)
    (ht : tokens.map Token.kind = x.innerKinds ++ Operator.isIn.kind :: (Expr.list items).kinds) :
    ∃ operands, Reads top state tokens (.operation .isIn operands) ∧
      (Expr.sameAll operands [x, .list items] = true ↔
        x.regular false = true ∧ (Expr.list items).regular true = true) := by
  obtain ⟨ts, rest, rfl, hts, ht⟩ := List.map_eq_append_iff.1 ht
  obtain ⟨operator, ts', rfl, hk, hts'⟩ := List.map_eq_cons_iff.1 ht
  obtain ⟨x', ⟨u, hr, hl, hd⟩, hsame, -⟩ := hx _ ts hs hts
  let after := (state.extend u).push (.operator .isIn operator.span)
  have hc : after.capture = none := hs.capture
  obtain ⟨elements, span, hrun, hsame'⟩ := exists_run_list hc rfl hi hwhole hts'
  have hlist : Reads (.operand 0) after ts' (.list (Element.toExprs elements)) :=
    ⟨[.list elements span], hrun, rfl, .bare .list⟩
  refine ⟨[x', .list (Element.toExprs elements)],
    reads_binary hs.capture hw (by decide) rfl hk hr hl hd hlist rfl, ?_⟩
  simp [Expr.sameAll, hsame, hsame']

end Operations

/-- An operation without parentheses around it. -/
theorem exists_reads_operation {state : Tagging} {tokens : List Token} {op : Operator}
    {operands : List Expr} (h : Expr.Shaped Operand.Readable false (.operation op operands))
    (hwhole : ∀ x ∈ (Expr.operation op operands).leaves, x.Whole)
    (hr : ∀ e ∈ operands, Expr.Shaped Operand.Readable false e → Rereads e) (hs : state.Ready)
    (hw : state.waiting = 0) (ht : tokens.map Token.kind = (Expr.operation op operands).kinds) :
    ∃ operands', Reads top state tokens (.operation op operands') ∧
      ((Expr.operation op operands').same (.operation op operands) = true ↔
        (Expr.operation op operands).regular false = true) := by
  rw [Expr.kinds_operation] at ht
  rw [Expr.leaves_operation] at hwhole
  simp only [Expr.same_operation_iff]
  cases h with
  | @isIn _ x items hx hi =>
    rw [Expr.regular, Bool.not_false, Bool.true_and, Bool.and_eq_true_iff]
    exact exists_reads_isIn hs hw (hr x (by simp) hx) hi (fun y hy => hwhole y (by simp [hy])) ht
  | operation hop hin hc hlen he =>
    rw [Expr.regular_operation hin, Bool.not_false, Bool.true_and]
    have hall : ∀ e ∈ operands, Rereads e := fun e hm => hr e hm (he e hm)
    cases ha : op.arity with
    | unary =>
      obtain ⟨x, rfl⟩ := List.length_eq_one_iff.1 (hlen.trans (congrArg Arity.count ha))
      exact exists_reads_unary hs hop ha (hall x (by simp)) ht
    | binary =>
      obtain ⟨x, y, rfl⟩ := List.length_eq_two.1 (hlen.trans (congrArg Arity.count ha))
      exact exists_reads_binary hs hw hop ha hin hc (hall x (by simp)) (hall y (by simp)) ht
    | ternary =>
      obtain ⟨x, low, high, rfl⟩ := List.length_eq_three.1 (hlen.trans (congrArg Arity.count ha))
      obtain rfl := OperatorTable.eq_between_of_mem_tiers hop ha
      exact exists_reads_between hs hw (hall x (by simp)) (hall low (by simp))
        (hall high (by simp)) ht

/-! ## Trees -/

/-- A tree outside of the lists after `IN`, whose leaves do not fall into parts. -/
theorem rereads {e : Expr} (h : Expr.Shaped Operand.Readable false e)
    (hw : ∀ x ∈ e.leaves, x.Whole) : Rereads e := by
  induction e using Expr.induction_subtrees with
  | operand x =>
    cases h with
    | operand hx => exact rereads_operand hx (hw x (by simp [Expr.leaves]))
  | list items ih =>
    cases h with
    | list hi hn _ =>
      rw [Expr.leaves_list] at hw
      exact rereads_list fun e he =>
        ⟨ih e he (hi e he) fun x hx => hw x (List.mem_flatMap.2 ⟨e, he, hx⟩), hn rfl e he⟩
  | operation op operands ih =>
    intro state tokens hs ht
    have ht : tokens.map Token.kind = Expr.enclosed (Expr.operation op operands).kinds := ht
    obtain ⟨opening, ts, closing, rfl, ho, ht, hc⟩ := exists_of_enclosed ht
    have hr : ∀ e ∈ operands, Expr.Shaped Operand.Readable false e → Rereads e := by
      intro e he hse
      rw [Expr.leaves_operation] at hw
      exact ih e he hse fun x hx => hw x (List.mem_flatMap.2 ⟨e, he, hx⟩)
    obtain ⟨operands', hreads, hsame⟩ :=
      exists_reads_operation h hw hr (hs.enter opening.span) rfl ht
    exact ⟨_, .group hs ho hc hreads, hsame, fun _ => rfl⟩

/-- The whole text of a tree is read as an expression, and as the same tree exactly if the tree is
regular. -/
theorem exists_reads_tree {state : Tagging} {tokens : List Token} {e : Expr}
    (h : Expr.Shaped Operand.Readable false e) (hwhole : ∀ x ∈ e.leaves, x.Whole)
    (hs : state.Ready) (hw : state.waiting = 0) (ht : tokens.map Token.kind = e.kinds) :
    ∃ e', Reads top state tokens e' ∧ (e'.same e = true ↔ e.regular false = true) := by
  by_cases hop : e.operator?.isSome = true
  · cases e with
    | operation op operands =>
      have hr : ∀ e ∈ operands, Expr.Shaped Operand.Readable false e → Rereads e := by
        intro e he hse
        rw [Expr.leaves_operation] at hwhole
        exact rereads hse fun x hx => hwhole x (List.mem_flatMap.2 ⟨e, he, hx⟩)
      obtain ⟨operands', hreads, hsame⟩ := exists_reads_operation h hwhole hr hs hw ht
      exact ⟨_, hreads, hsame⟩
    | _ => cases hop
  · have ht : tokens.map Token.kind = e.innerKinds := by rw [ht, Expr.innerKinds, if_neg hop]
    obtain ⟨e', hreads, hsame, -⟩ := rereads h hwhole state tokens hs ht
    exact ⟨e', hreads.weaken (by decide), hsame⟩

end WhereClause
