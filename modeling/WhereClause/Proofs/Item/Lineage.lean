import Mathlib.Data.List.Chain
import WhereClause.Proofs.Expr.Tokens
import WhereClause.Proofs.Item.Balance

/-!
# Where items come from

The operands among the items of a clause are those of its tokens, in the same order; of a number
with a minus before it in a list after `IN` only the sign is changed. What holds of the words and
symbols that a standard lexer gives therefore holds of the operands of items. A literal list stands
directly after an `IN` and nowhere else.

One step of the tagging keeps all of this, so a whole tagging does.
-/

namespace WhereClause

open Lexicon

/-! ## Tokens of a standard lexer -/

namespace Token.Kind

/-- What is known of the tokens of a standard lexer. -/
def Proper : Token.Kind → Prop
  | .punctuation mark => mark = '(' ∨ mark = ')' ∨ mark = ','
  | .operator text => text.toList ∈ standard.symbols ∧ text ∉ ["(", ")", ","]
  | .literal value _ => value ≠ .integer Int64.minValue
  | .identifier text => IsWord text.toList ∧ Literal.ofWord? text = none

end Token.Kind

theorem Lexicon.Lexical.proper {k : Token.Kind} (h : Lexical k) : k.Proper := by
  cases h with
  | @symbol symbol span hs =>
    unfold Token.ofSymbol
    split
    · exact .inl rfl
    · exact .inr (.inl rfl)
    · exact .inr (.inr rfl)
    · rename_i h₁ h₂ h₃
      have hne {text : String} (h : symbol ≠ text.toList) : String.ofList symbol ≠ text := by
        rintro rfl
        exact h (String.toList_ofList).symm
      refine ⟨by rwa [String.toList_ofList], ?_⟩
      simp only [List.mem_cons, List.not_mem_nil, or_false, not_or]
      exact ⟨hne h₁, hne h₂, hne h₃⟩
  | @word word span hw =>
    rw [ofWord_kind]
    cases hv : Literal.ofWord? (String.ofList word) with
    | none => exact ⟨by rwa [String.toList_ofList], hv⟩
    | some value =>
      rintro rfl
      exact Literal.ofWord?_ne_minValue hw.minus_not_mem hv
  | quoted => exact fun h => by cases h

/-! ## Operands of items -/

namespace Element

theorem toExprs_eq (es : List Element) : toExprs es = es.map toExpr := by
  induction es with
  | nil => rfl
  | cons e rest ih => rw [toExprs, ih, List.map_cons]

/-- The operands of an element. -/
def leaves (e : Element) : List Operand :=
  e.toExpr.leaves

theorem leaves_list (es : List Element) : (Element.list es).leaves = es.flatMap leaves := by
  rw [leaves, toExpr, Expr.leaves_list, toExprs_eq, List.flatMap_map]
  rfl

theorem flatMap_leaves_collapse (es : List Element) :
    (collapse es).flatMap leaves = es.flatMap leaves := by
  unfold collapse
  split
  · rw [List.flatMap_singleton, leaves_list]
  · rfl

/-- An element as a standard parser gives it. -/
def Sound (e : Element) : Prop :=
  e.toExpr.Shaped Operand.Parsed true

theorem sound_operand {x : Operand} (h : x.Parsed true) : (Element.operand x).Sound :=
  .operand h

theorem leaves_operand (x : Operand) : (Element.operand x).leaves = [x] := rfl

/-- No list has a list as its only element, when it is closed. -/
theorem sound_collapse {es : List Element} (h : ∀ e ∈ es, e.Sound) :
    (Element.list (collapse es)).Sound := by
  unfold collapse
  split
  · exact h _ (by simp)
  · rename_i hne
    rw [Sound, toExpr, toExprs_eq]
    refine .list ?_ (by simp) fun _ inner hinner => ?_
    · intro x hx
      obtain ⟨e, he, rfl⟩ := List.mem_map.1 hx
      exact h e he
    · obtain ⟨e, rfl, he⟩ := List.map_eq_singleton_iff.1 hinner
      cases e with
      | operand x => cases he
      | list inner' => exact hne inner' rfl

end Element

namespace Item

/-- The operands of an item. -/
def leaves : Item → List Operand
  | .operand x _ => [x]
  | .list elements _ => elements.flatMap Element.leaves
  | _ => []

/-- An item whose operands are as a standard parser gives them. -/
def Sound : Item → Prop
  | .operand x _ => x.Parsed false
  | .list elements _ => (Element.list elements).Sound
  | _ => True

/-- A literal list stands after an `IN` only. -/
def Follows (earlier later : Item) : Prop :=
  ∀ elements span, later = .list elements span → ∃ span', earlier = .operator .isIn span'

end Item

namespace Capture

/-- The operands of the lists that are open. -/
def leaves (capture : Capture) : List Operand :=
  (capture.inner :: capture.outer).reverse.flatMap fun list =>
    list.elements.reverse.flatMap Element.leaves

/-- Open lists as a standard parser has them: the minus that the next number takes is the last
element. -/
structure Sound (capture : Capture) : Prop where
  elements : ∀ list ∈ capture.inner :: capture.outer, ∀ e ∈ list.elements, e.Sound
  minus : capture.minus = true →
    ∃ rest, capture.inner.elements = .operand (.identifier "-") :: rest

end Capture

/-- What tokens show, and operands in the same way: strings, for instance, or names. -/
structure Tracks {β : Type} (f : Token.Kind → Option β) (g : Operand → Option β) : Prop where
  punctuation : ∀ mark, f (.punctuation mark) = none
  operator : ∀ text, f (.operator text) = none
  literal : ∀ value quote, f (.literal value quote) = g (.literal value)
  negated : ∀ v v', v.negated? = some v' → g (.literal v) = none ∧ g (.literal v') = none
  identifier : ∀ text, f (.identifier text) = g (.identifier text)
  known : ∀ text, OperatorTable.standard.get? text ≠ none → g (.identifier text) = none

theorem tracks_string : Tracks Token.Kind.string? Operand.string? where
  punctuation _ := rfl
  operator _ := rfl
  literal value _ := by cases value <;> rfl
  negated v v' h := by
    cases v <;> simp [Literal.negated?] at h
    · exact ⟨rfl, h.2 ▸ rfl⟩
    · exact ⟨rfl, h ▸ rfl⟩
  identifier _ := rfl
  known _ _ := rfl

theorem tracks_name : Tracks Token.Kind.name? Operand.name? where
  punctuation _ := rfl
  operator _ := rfl
  literal _ _ := rfl
  negated _ _ _ := ⟨rfl, rfl⟩
  identifier _ := rfl
  known text h := by simp [Operand.name?, h]

section Steps

variable {β : Type} {f : Token.Kind → Option β} {g : Operand → Option β}

/-! ## Tokens of a literal list -/

namespace Capture

theorem leaves_push (capture : Capture) (e : Element) (minus : Bool) :
    leaves { capture with inner := capture.inner.push e, minus } = capture.leaves ++ e.leaves := by
  simp [leaves, OpenList.push]

theorem Sound.push {capture : Capture} (h : capture.Sound) {e : Element} (he : e.Sound)
    {minus : Bool} (hm : minus = true → e = .operand (.identifier "-")) :
    Sound { capture with inner := capture.inner.push e, minus } where
  elements := by
    intro list hl e' he'
    rcases List.mem_cons.1 hl with rfl | hl
    · rcases List.mem_cons.1 he' with rfl | he'
      · exact he
      · exact h.elements _ (by simp) e' he'
    · exact h.elements list (by simp [hl]) e' he'
  minus h' := ⟨_, by rw [OpenList.push, hm h']⟩

theorem negated?_ne_minValue {v value : Literal} (h : v.negated? = some value) :
    value ≠ .integer Int64.minValue := by
  rintro rfl
  cases v with
  | integer n =>
    rw [Literal.negated?] at h
    split at h
    · cases h
    · rename_i hn
      rw [Option.some.injEq, Literal.integer.injEq] at h
      have hn' : n = -Int64.minValue := by rw [← h, Int64.neg_neg]
      exact hn hn'
  | _ => cases h

/-- The operand that a token is in a literal list. -/
theorem exists_ofToken? (hT : Tracks f g) {token : Token} (hp : token.kind.Proper)
    (ho : token.kind ≠ .punctuation '(') (hc : token.kind ≠ .punctuation ')') {e : Element}
    (he : Element.ofToken? token = some e) :
    ∃ x, e = .operand x ∧ x.Parsed true ∧ g x = f token.kind ∧
      (token.isMinus = true → x = .identifier "-") := by
  unfold Element.ofToken? at he
  unfold Token.isMinus
  cases hk : token.kind with
  | literal value quote =>
    rw [hk] at he hp
    exact ⟨_, (Option.some.inj he).symm, hp, (hT.literal _ _).symm, by simp⟩
  | operator text =>
    rw [hk] at he hp
    refine ⟨_, (Option.some.inj he).symm, .inr ⟨rfl, hp⟩, ?_, fun hm => by simpa using hm⟩
    rw [hT.operator, hT.known _ (Operand.get?_symbol hp.1 hp.2)]
  | identifier text =>
    rw [hk] at he hp
    exact ⟨_, (Option.some.inj he).symm, .inl ⟨hp.1, hp.2, by simp⟩, (hT.identifier _).symm,
      by simp⟩
  | punctuation mark =>
    rw [hk] at he hp ho hc
    rcases hp with rfl | rfl | rfl
    · exact absurd rfl ho
    · exact absurd rfl hc
    · cases he

/-- What a token that is no parenthesis does to the open lists. -/
theorem Sound.step {capture : Capture} (h : capture.Sound) (hT : Tracks f g) {token : Token}
    (hp : token.kind.Proper) (ho : token.kind ≠ .punctuation '(')
    (hc : token.kind ≠ .punctuation ')') :
    (capture.push token).Sound ∧
      (capture.push token).leaves.filterMap g =
        capture.leaves.filterMap g ++ (f token.kind).toList := by
  unfold Capture.push
  split
  · rename_i value hn
    -- the number takes the minus before it
    have hm : capture.minus = true := by
      by_contra hm
      simp [hm] at hn
    obtain ⟨rest, hr⟩ := h.minus hm
    rw [if_pos hm, Token.negated?] at hn
    split at hn
    · rename_i v hk
      obtain ⟨hv, hvalue⟩ := hT.negated v value hn
      have hminus : g (.identifier "-") = none := hT.known _ (by decide +kernel)
      refine ⟨⟨fun list hl e he => ?_, by simp⟩, ?_⟩
      · rcases List.mem_cons.1 hl with rfl | hl
        · rw [OpenList.replaceLast, hr, List.drop_one, List.tail_cons] at he
          rcases List.mem_cons.1 he with rfl | he
          · exact .operand (negated?_ne_minValue hn)
          · exact h.elements capture.inner (by simp) e (by rw [hr]; exact List.mem_cons_of_mem _ he)
        · exact h.elements list (by simp [hl]) e he
      · rw [hk, hT.literal, hv]
        simp [leaves, OpenList.replaceLast, hr, Element.leaves_operand, List.filterMap_cons_none,
          hminus, hvalue]
    · cases hn
  · rename_i e _ he
    obtain ⟨x, rfl, hx, hg, hm⟩ := exists_ofToken? hT hp ho hc he
    refine ⟨h.push (Element.sound_operand hx) fun h' => by rw [hm h'], ?_⟩
    rw [leaves_push, List.filterMap_append, Element.leaves_operand, ← hg]
    cases hgx : g x <;> simp [hgx]
  · rename_i _ he
    refine ⟨⟨h.elements, by simp⟩, ?_⟩
    have hnone : f token.kind = none := by
      unfold Element.ofToken? at he
      cases hk : token.kind with
      | punctuation mark => exact hT.punctuation mark
      | _ =>
        rw [hk] at he
        cases he
    rw [hnone]
    simp [leaves]

end Capture

/-! ## Tokens outside of literal lists -/

/-- The `AND` of a `BETWEEN` is an operator of the table, whatever its case. -/
theorem get?_and {word : String} (h : Text.eqIgnoringAsciiCase word "AND" = true) :
    OperatorTable.standard.get? word ≠ none := by
  have hl : word.toList.map Text.upperAscii = ['A', 'N', 'D'] := by
    have := congrArg String.toList (eq_of_beq h)
    rw [Text.asciiUpper, String.toList_ofList] at this
    exact this.trans (by decide)
  have hchar {c d : Char} (hd : d.toNat < 97) (hc : Text.upperAscii c = d) :
      Text.upperChar c = [d] := by
    have hlt : c.toNat < 128 := by
      by_contra hge
      rw [Text.upperAscii, if_neg (by omega)] at hc
      rw [hc] at hge
      omega
    rw [Text.upperChar, if_pos hlt, hc]
  have hu : Text.upper word = "AND" := by
    obtain ⟨a, rest, hw, ha, hl⟩ := List.map_eq_cons_iff.1 hl
    obtain ⟨n, rest, rfl, hn, hl⟩ := List.map_eq_cons_iff.1 hl
    obtain ⟨d, rest, rfl, hd, hl⟩ := List.map_eq_cons_iff.1 hl
    rw [Text.upper, hw, List.map_eq_nil_iff.1 hl]
    simp [hchar (by decide) ha, hchar (by decide) hn, hchar (by decide) hd]
  rw [OperatorTable.get?, hu]
  decide +kernel

namespace Tagging

variable {state state' : Tagging} {token : Token}

/-- The operands read so far. -/
def leaves (state : Tagging) : List Operand :=
  state.items.reverse.flatMap Item.leaves ++
    match state.capture with
    | none => []
    | some capture => capture.leaves

/-- A tagging of tokens of a standard lexer: its items and open lists are sound, and a literal list
is read after an `IN` only. -/
structure Sound (state : Tagging) : Prop where
  items : ∀ item ∈ state.items, item.Sound
  chain : state.items.reverse.IsChain Item.Follows
  capture : ∀ capture, state.capture = some capture → capture.Sound ∧ state.afterIn = true

theorem sound_initial : Sound initial :=
  ⟨by simp [initial, Item.Sound], by simp [initial], by simp [initial]⟩

/-- An item is added, a literal list only after an `IN`. -/
theorem Sound.add (h : Sound state) {item : Item} (hs : state'.items = item :: state.items)
    (hc : state'.capture = none) (hi : item.Sound)
    (hf : ∀ elements span, item = .list elements span → state.afterIn = true) : Sound state' where
  items := by
    rw [hs]
    exact List.forall_mem_cons.2 ⟨hi, h.items⟩
  chain := by
    rw [hs, List.reverse_cons]
    refine h.chain.append (by simp) fun earlier he later hl elements span hlater => ?_
    rw [List.head?_cons, Option.mem_some_iff] at hl
    have ha := hf elements span (hl.trans hlater)
    rw [List.getLast?_reverse] at he
    unfold afterIn at ha
    split at ha
    · rename_i op span' _ hitems
      rw [hitems, List.head?_cons, Option.mem_some_iff] at he
      exact ⟨span', by rw [← he, eq_of_beq ha]⟩
    · cases ha
  capture := by simp [hc]

theorem leaves_add {item : Item} (hs : state'.items = item :: state.items)
    (hc : state.capture = none) (hc' : state'.capture = none) :
    state'.leaves = state.leaves ++ item.leaves := by
  simp [leaves, hs, hc, hc']

/-- What a word does: it is an operator or a separator, or a name that is no operator. -/
theorem readWord_cases (state : Tagging) (word : String) (span : Span) :
    (readWord .standard state word span).capture = state.capture ∧
      ∃ item, (readWord .standard state word span).items = item :: state.items ∧
        ((OperatorTable.standard.get? word ≠ none ∧ item.leaves = [] ∧ item.Sound ∧
            ∀ elements span', item ≠ .list elements span') ∨
          OperatorTable.standard.get? word = none ∧ item = .operand (.identifier word) span) := by
  unfold readWord
  split
  · rename_i hand
    have hg := get?_and (Bool.and_eq_true_iff.1 hand).1
    exact ⟨rfl, _, rfl, .inl ⟨hg, rfl, trivial, by simp⟩⟩
  · split
    · rename_i hn
      exact ⟨rfl, _, rfl, .inr ⟨Option.map_eq_none_iff.1 hn, rfl⟩⟩
    · rename_i hs
      refine ⟨rfl, _, rfl, .inl ⟨fun hn => ?_, rfl, trivial, by simp⟩⟩
      simp [operatorAt?, hn] at hs
    · rename_i hs
      refine ⟨rfl, _, rfl, .inl ⟨fun hn => ?_, rfl, trivial, by simp⟩⟩
      simp [operatorAt?, hn] at hs

theorem Sound.readWord (h : Sound state) (hc : state.capture = none) (hT : Tracks f g)
    {word : String} (hw : OperatorTable.standard.get? word = none →
      IsWord word.toList ∧ Literal.ofWord? word = none) (span : Span) :
    Sound (readWord .standard state word span) ∧
      (readWord .standard state word span).leaves.filterMap g =
        state.leaves.filterMap g ++ (g (.identifier word)).toList := by
  obtain ⟨hcap, item, hitems, hitem⟩ := readWord_cases state word span
  have hcap' := hcap.trans hc
  rw [leaves_add hitems hc hcap', List.filterMap_append]
  rcases hitem with ⟨hg, hl, hs, hne⟩ | ⟨hg, rfl⟩
  · refine ⟨h.add hitems hcap' hs fun es sp he => absurd he (hne es sp), ?_⟩
    rw [hl, hT.known word hg]
    rfl
  · obtain ⟨hword, hnone⟩ := hw hg
    refine ⟨h.add hitems hcap' (.inl ⟨hword, hnone, fun _ => hg⟩) (by simp), ?_⟩
    cases hgx : g (.identifier word) <;> simp [Item.leaves, hgx]

/-- What a token outside of the literal lists does. -/
theorem Sound.readToken (h : Sound state) (hc : state.capture = none) (hT : Tracks f g)
    (hp : token.kind.Proper) (hr : readToken .standard state token = .ok state') :
    Sound state' ∧
      state'.leaves.filterMap g = state.leaves.filterMap g ++ (f token.kind).toList := by
  unfold Tagging.readToken at hr
  split at hr
  · rename_i value quote hk
    cases hr
    rw [hk] at hp ⊢
    refine ⟨h.add rfl hc hp (by simp), ?_⟩
    rw [leaves_add rfl hc (by exact hc), List.filterMap_append, hT.literal]
    cases hgx : g (.literal value) <;> simp [Item.leaves, hgx]
  · rename_i hk
    rw [hk, hT.punctuation, Option.toList_none, List.append_nil]
    split at hr
    · rename_i ha
      cases hr
      refine ⟨⟨h.items, h.chain, fun capture hcap => ?_⟩, ?_⟩
      · cases hcap
        exact ⟨⟨by simp, by simp⟩, ha⟩
      · simp [leaves, hc, Capture.leaves]
    · cases hr
      exact ⟨h.add rfl hc trivial (by simp), by
        rw [leaves_add rfl hc (by exact hc)]; simp [Item.leaves]⟩
  · rename_i hk
    rw [hk, hT.punctuation, Option.toList_none, List.append_nil]
    unfold readClosing at hr
    split at hr
    · cases hr
    · cases hr
      exact ⟨h.add rfl hc trivial (by simp), by
        rw [leaves_add rfl hc (by exact hc)]; simp [Item.leaves]⟩
  · rename_i mark _ _ hk
    cases hr
    have hcomma : OperatorTable.standard.get? "," ≠ none := by decide +kernel
    have hw := h.readWord hc hT (fun hn => absurd hn hcomma) token.span
    rw [hT.known _ hcomma] at hw
    rw [hk, hT.punctuation]
    exact hw
  · rename_i text hk
    cases hr
    rw [hk] at hp ⊢
    have hg := Operand.get?_symbol hp.1 hp.2
    have hw := h.readWord hc hT (fun hn => absurd hn hg) token.span
    rw [hT.known _ hg] at hw
    rw [hT.operator]
    exact hw
  · rename_i text hk
    cases hr
    rw [hk] at hp ⊢
    rw [hT.identifier]
    exact h.readWord hc hT (fun _ => hp) token.span

/-- What a token of a literal list does. -/
theorem Sound.readListToken (h : Sound state) {capture : Capture}
    (hc : state.capture = some capture) (hT : Tracks f g) (hp : token.kind.Proper) :
    Sound (readListToken state capture token) ∧
      (readListToken state capture token).leaves.filterMap g =
        state.leaves.filterMap g ++ (f token.kind).toList := by
  obtain ⟨hs, ha⟩ := h.capture capture hc
  unfold Tagging.readListToken
  split
  · rename_i hk
    rw [hk, hT.punctuation, Option.toList_none, List.append_nil]
    refine ⟨⟨h.items, h.chain, fun capture' hcap => ?_⟩, ?_⟩
    · cases hcap
      refine ⟨⟨fun list hl => ?_, by simp⟩, ha⟩
      rcases List.mem_cons.1 hl with rfl | hl
      · simp
      · exact hs.elements list hl
    · simp [leaves, hc, Capture.leaves]
  · rename_i hk
    rw [hk, hT.punctuation, Option.toList_none, List.append_nil]
    have hsound : (Element.list (Element.collapse capture.inner.elements.reverse)).Sound :=
      Element.sound_collapse fun e he =>
        hs.elements capture.inner (by simp) e (List.mem_reverse.1 he)
    have hleaves := Element.flatMap_leaves_collapse capture.inner.elements.reverse
    dsimp only
    split
    · rename_i hout
      refine ⟨h.add rfl rfl hsound fun _ _ _ => ha, ?_⟩
      simp [leaves, push, hc, hout, Capture.leaves, Item.leaves, hleaves]
    · rename_i list outer hout
      refine ⟨⟨h.items, h.chain, fun capture' hcap => ?_⟩, ?_⟩
      · cases hcap
        refine ⟨⟨fun list' hl e he => ?_, by simp⟩, ha⟩
        rcases List.mem_cons.1 hl with rfl | hl
        · rcases List.mem_cons.1 he with rfl | he
          · exact hsound
          · exact hs.elements list (by simp [hout]) e he
        · exact hs.elements list' (by simp [hout, hl]) e he
      · simp [leaves, hc, hout, Capture.leaves, OpenList.push, Element.leaves_list, hleaves]
  · rename_i hno hnc
    obtain ⟨hs', hl⟩ := hs.step hT hp hno hnc
    refine ⟨⟨h.items, h.chain, fun capture' hcap => ?_⟩, ?_⟩
    · cases hcap
      exact ⟨hs', ha⟩
    · simp only [leaves, hc, List.filterMap_append, List.append_assoc, hl]

/-! ## All tokens -/

theorem Sound.step (h : Sound state) (hT : Tracks f g) (hp : token.kind.Proper)
    (hr : step .standard state token = .ok state') :
    Sound state' ∧
      state'.leaves.filterMap g = state.leaves.filterMap g ++ (f token.kind).toList := by
  unfold Tagging.step at hr
  split at hr
  · rename_i capture hc
    cases hr
    exact h.readListToken hc hT hp
  · rename_i hc
    exact h.readToken hc hT hp hr

theorem Sound.foldlM {tokens : List Token} (h : Sound state) (hT : Tracks f g)
    (hp : ∀ t ∈ tokens, t.kind.Proper)
    (hr : tokens.foldlM (Tagging.step .standard) state = .ok state') :
    Sound state' ∧ state'.leaves.filterMap g =
      state.leaves.filterMap g ++ (tokens.map Token.kind).filterMap f := by
  induction tokens generalizing state with
  | nil =>
    cases hr
    exact ⟨h, by simp⟩
  | cons token rest ih =>
    obtain ⟨next, hn, hr⟩ := foldlM_cons_eq_ok_iff.1 hr
    obtain ⟨hs, hl⟩ := h.step hT (hp token (by simp)) hn
    obtain ⟨hs', hl'⟩ := ih hs (fun t ht => hp t (by simp [ht])) hr
    refine ⟨hs', ?_⟩
    rw [hl', hl, List.append_assoc]
    cases hf : f token.kind <;> simp [hf]

end Tagging

/-- The items of a clause, with what is known of their operands. -/
theorem Item.sound_of_ofTokens {length : Nat} {tokens : List Token} {items : List Item}
    (hT : Tracks f g) (hp : ∀ t ∈ tokens, t.kind.Proper)
    (h : Item.ofTokens .standard length tokens = .ok items) :
    (∀ item ∈ items, item.Sound) ∧ items.IsChain Item.Follows ∧
      (items.flatMap Item.leaves).filterMap g = (tokens.map Token.kind).filterMap f := by
  obtain ⟨state, hs, hf⟩ := bind_eq_ok_iff.1 h
  obtain ⟨hsound, hleaves⟩ := Tagging.sound_initial.foldlM hT hp hs
  unfold Tagging.finish at hf
  split at hf
  · cases hf
  · cases hf
  · rename_i hc hg
    cases hf
    let closed := state.push (.closing (.point length))
    have hclosed : Tagging.Sound closed := hsound.add rfl hc trivial (by simp)
    refine ⟨fun item hi => hclosed.items item (List.mem_reverse.1 hi), hclosed.chain, ?_⟩
    have hl : closed.items.reverse.flatMap Item.leaves = closed.leaves := by
      simp [Tagging.leaves, closed, Tagging.push, hc]
    rw [hl, Tagging.leaves_add rfl hc (by exact hc), List.filterMap_append, hleaves]
    simp [Tagging.leaves, Tagging.initial, Item.leaves]

end Steps

end WhereClause
