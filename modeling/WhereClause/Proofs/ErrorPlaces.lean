import Mathlib.Data.List.Forall2
import WhereClause.Proofs.Phrase.Places
import WhereClause.Proofs.Rejection
import WhereClause.Proofs.Token.Tiling
import WhereClause.Proofs.Value.Places

/-!
# Places of errors

The place of an error is that of the tokens it is about. Most errors have the place of one token:
the operator that lacks an operand, the `BETWEEN` without its `AND`, the operand or parenthesis
before which an operator is missing, and the parenthesis without a partner. The operand of an `IN`
that is no list may be made of several tokens; it starts with the token directly after the `IN`.

Reading a clause and evaluating it on the way find their errors at different times and merge the
places of operands in different ways, but for both it is said which items an error is about. What is
left is to go from items to tokens.
-/

namespace WhereClause

/-- The error is about some of the tokens, which are what its reason says, and has their place. -/
def SyntaxError.PointsInto (t : OperatorTable) (tokens : List Token) : SyntaxError → Prop
  | .missingOperand op span => ∃ token ∈ tokens, token.span = span ∧
    token.Names t (if op = .negate then .subtract else op)
  | .malformedBetween span => ∃ token ∈ tokens, token.span = span ∧ token.Names t .between
  | .missingOperator span => ∃ before earlier token after,
    tokens = before ++ earlier :: token :: after ∧ token.span = span ∧
      (token.isOpening = true ∨ token.IsOperand t ∨
        ∃ op, token.Names t op ∧ op.isPrefix = true) ∧
      (earlier.IsOperand t ∨ earlier.isClosing = true)
  | .invalidInTarget span => ∃ before isIn target after last,
    tokens = before ++ isIn :: target :: after ∧ isIn.Names t .isIn ∧
      target.span.start = span.start ∧ last ∈ target :: after ∧ last.span.stop = span.stop
  | .unmatchedParenthesis span => ∃ token ∈ tokens, token.span = span ∧
    (token.isOpening = true ∨ token.isClosing = true)

variable {t : OperatorTable} {tokens : List Token} {ws body : List Item} {item : Item}
  {block : List Token} {blocks : List (List Token)}

/-! ## The tokens of an item -/

theorem Token.isOperand_of_literal {token : Token} {value : Literal} {quote : Option Char}
    (h : token.kind = .literal value quote) : token.IsOperand t := by
  refine ⟨?_, ?_, fun word hw => ?_⟩
  · simp [isOpening, h]
  · simp [isClosing, h]
  · simp [word?, h] at hw

theorem Token.Becomes.span_eq {token : Token} (h : token.Becomes t ws item) :
    item.span = token.span := by
  cases h <;> rfl

namespace Item

/-- The tokens that an item stands for. -/
inductive Block (t : OperatorTable) : List Token → Item → Prop
  | token {ws : List Item} {token : Token} {item : Item} : token.Becomes t ws item →
    Block t [token] item
  | list {opening closing : Token} {inner : List Token} {es : List Element} :
    opening.isOpening = true → closing.isClosing = true →
      Block t (opening :: inner ++ [closing]) (.list es (opening.span.merge closing.span))

/-- The items of a clause stand for its tokens, block by block. -/
theorem Origin.exists_blocks (h : Origin t tokens ws) :
    ∃ body blocks, ws = .opening (.point 0) :: body ∧ tokens = blocks.flatten ∧
      List.Forall₂ (Block t) blocks body := by
  induction h with
  | start => exact ⟨[], [], rfl, rfl, .nil⟩
  | @token tokens ws token item _ hb ih =>
    obtain ⟨body, blocks, rfl, rfl, hall⟩ := ih
    refine ⟨body ++ [item], blocks ++ [[token]], rfl, by simp, ?_⟩
    exact List.rel_append hall (.cons (.token hb) .nil)
  | @list tokens inner ws opening closing es span _ _ ho _ hc ih =>
    obtain ⟨body, blocks, rfl, rfl, hall⟩ := ih
    refine ⟨body ++ [_], blocks ++ [opening :: inner ++ [closing]], rfl, by simp, ?_⟩
    exact List.rel_append hall (.cons (.list ho hc) .nil)

theorem exists_blocks_append {u w : List Item} (h : List.Forall₂ (Block t) blocks (u ++ w)) :
    ∃ bs cs, blocks = bs ++ cs ∧ List.Forall₂ (Block t) bs u ∧ List.Forall₂ (Block t) cs w :=
  ⟨_, _, (List.take_append_drop u.length blocks).symm, List.forall₂_take_append _ _ _ h,
    List.forall₂_drop_append _ _ _ h⟩

theorem exists_blocks_adjacent {before after : List Item} {earlier later : Item}
    (h : List.Forall₂ (Block t) blocks (before ++ earlier :: later :: after)) :
    ∃ bs b c cs, blocks = bs ++ b :: c :: cs ∧ Block t b earlier ∧ Block t c later ∧
      List.Forall₂ (Block t) cs after := by
  obtain ⟨bs, ds, rfl, -, hds⟩ := exists_blocks_append h
  obtain ⟨b, es, hb, hes, rfl⟩ := List.forall₂_cons_right_iff.1 hds
  obtain ⟨c, cs, hc, hcs, rfl⟩ := List.forall₂_cons_right_iff.1 hes
  exact ⟨bs, b, c, cs, rfl, hb, hc, hcs⟩

theorem exists_block {w : List Item} (h : List.Forall₂ (Block t) blocks w) (hm : item ∈ w) :
    ∃ block ∈ blocks, Block t block item := by
  obtain ⟨u, v, rfl⟩ := List.append_of_mem hm
  obtain ⟨bs, cs, rfl, -, hcs⟩ := exists_blocks_append h
  obtain ⟨block, rest, hb, -, rfl⟩ := List.forall₂_cons_right_iff.1 hcs
  exact ⟨block, by simp, hb⟩

namespace Block

theorem exists_operator {op : Operator} {span : Span} (h : Block t block (.operator op span)) :
    ∃ token, block = [token] ∧ token.span = span ∧
      token.Names t (if op = .negate then .subtract else op) := by
  cases h with
  | @token _ token _ hb =>
    cases hb with
    | operator hn =>
      have hop : op ≠ .negate := fun heq => Token.not_names_negate (heq ▸ hn)
      exact ⟨token, rfl, rfl, by rwa [if_neg hop]⟩
    | negate hn => exact ⟨token, rfl, rfl, hn⟩

/-- An operand ends with a token that is an operand, or with a closing parenthesis. -/
theorem exists_last (h : Block t block item) (he : item.endsOperand = true) :
    ∃ front last, block = front ++ [last] ∧ (last.IsOperand t ∨ last.isClosing = true) := by
  cases h with
  | @token _ token _ hb =>
    refine ⟨[], token, rfl, ?_⟩
    cases hb with
    | literal hk => exact .inl (Token.isOperand_of_literal hk)
    | name hn => exact .inl hn
    | closing hc => exact .inr hc
    | operator | negate | separator | opening => cases he
  | @list opening closing inner es _ hc => exact ⟨opening :: inner, closing, rfl, .inr hc⟩

/-- An operand that is no literal list begins with one token, a minus apart. -/
theorem exists_token (h : Block t block item) (hb : item.beginsOperand = true)
    (hl : ∀ es span, item ≠ .list es span) (hm : ∀ span, item ≠ .operator .negate span) :
    ∃ token, block = [token] ∧ token.span = item.span ∧
      (token.isOpening = true ∨ token.IsOperand t ∨
        ∃ op, token.Names t op ∧ op.isPrefix = true) := by
  cases h with
  | @token _ token _ hbecomes =>
    cases hbecomes with
    | literal hk => exact ⟨token, rfl, rfl, .inr (.inl (Token.isOperand_of_literal hk))⟩
    | name hn => exact ⟨token, rfl, rfl, .inr (.inl hn)⟩
    | operator hn => exact ⟨token, rfl, rfl, .inr (.inr ⟨_, hn, hb⟩)⟩
    | negate => exact absurd rfl (hm _)
    | opening ho => exact ⟨token, rfl, rfl, .inl ho⟩
    | separator | closing => cases hb
  | list => exact absurd rfl (hl _ _)

theorem exists_first (h : Block t block item) :
    ∃ first rest, block = first :: rest ∧ item.span.start ≤ first.span.start := by
  cases h with
  | @token _ token _ hb => exact ⟨token, [], rfl, hb.span_eq ▸ Nat.le_refl _⟩
  | @list opening closing inner es => exact ⟨opening, _, rfl, Nat.min_le_left _ _⟩

/-- The place of an item is taken from its tokens. -/
theorem exists_bounds (h : Block t block item) :
    (∃ token ∈ block, token.span.start = item.span.start) ∧
      ∃ token ∈ block, token.span.stop = item.span.stop := by
  cases h with
  | @token _ token _ hb => simp [hb.span_eq]
  | @list opening closing inner es =>
    constructor
    · rcases Nat.le_total opening.span.start closing.span.start with hle | hle
      · exact ⟨opening, by simp, (Nat.min_eq_left hle).symm⟩
      · exact ⟨closing, by simp, (Nat.min_eq_right hle).symm⟩
    · rcases Nat.le_total opening.span.stop closing.span.stop with hle | hle
      · exact ⟨closing, by simp, (Nat.max_eq_right hle).symm⟩
      · exact ⟨opening, by simp, (Nat.max_eq_left hle).symm⟩

end Block

theorem Within.exists_tokens {w : List Item} {span : Span} (h : Within w span)
    (hw : List.Forall₂ (Block t) blocks w) :
    (∃ token ∈ blocks.flatten, token.span.start = span.start) ∧
      ∃ token ∈ blocks.flatten, token.span.stop = span.stop := by
  obtain ⟨⟨a, ha, hstart⟩, ⟨b, hb, hstop⟩⟩ := h
  constructor
  · obtain ⟨block, hm, hblock⟩ := exists_block hw ha
    obtain ⟨token, ht, heq⟩ := hblock.exists_bounds.1
    exact ⟨token, List.mem_flatten.2 ⟨block, hm, ht⟩, heq.trans hstart⟩
  · obtain ⟨block, hm, hblock⟩ := exists_block hw hb
    obtain ⟨token, ht, heq⟩ := hblock.exists_bounds.2
    exact ⟨token, List.mem_flatten.2 ⟨block, hm, ht⟩, heq.trans hstop⟩

theorem exists_names {op : Operator} {span : Span}
    (hall : List.Forall₂ (Block t) blocks body)
    (hm : .operator op span ∈ Item.opening (.point 0) :: body) :
    ∃ token ∈ blocks.flatten, token.span = span ∧
      token.Names t (if op = .negate then .subtract else op) := by
  obtain ⟨block, hblock, hb⟩ := exists_block hall (by simpa using hm)
  obtain ⟨token, rfl, hspan, hn⟩ := hb.exists_operator
  exact ⟨token, List.mem_flatten.2 ⟨_, hblock, List.mem_cons_self⟩, hspan, hn⟩

end Item

/-! ## The tokens of an error -/

open Item

namespace SyntaxError

theorem pointsInto_missingOperator {before after : List Item} {earlier : Item}
    (hall : List.Forall₂ (Block t) blocks (before ++ earlier :: item :: after))
    (hadjoins : Adjoins earlier item) (he : earlier.endsOperand = true)
    (hb : item.beginsOperand = true) :
    (missingOperator item.span).PointsInto t blocks.flatten := by
  -- after an operand there is neither a literal list nor a prefix minus
  have hlist : ∀ es span, item ≠ .list es span := by
    intro es span heq
    obtain ⟨span', rfl⟩ := hadjoins.list es span heq
    cases he
  have hminus : ∀ span, item ≠ .operator .negate span := by
    intro span heq
    rw [hadjoins.minus span heq] at he
    cases he
  obtain ⟨bs, b, c, cs, rfl, hearlier, hitem, -⟩ := exists_blocks_adjacent hall
  obtain ⟨front, last, rfl, hlast⟩ := hearlier.exists_last he
  obtain ⟨token, rfl, hspan, htoken⟩ := hitem.exists_token hb hlist hminus
  exact ⟨bs.flatten ++ front, last, token, cs.flatten, by simp, hspan, htoken, hlast⟩

theorem pointsInto_invalidInTarget {before target after : List Item} {place span : Span}
    (hall : List.Forall₂ (Block t) blocks (before ++ .operator .isIn place :: target ++ after))
    (hadjoins : ∀ first rest, target = first :: rest → Adjoins (.operator .isIn place) first)
    (hx : Extent target span)
    (hs : blocks.flatten.Pairwise fun a b => a.span.start ≤ b.span.start) :
    (invalidInTarget span).PointsInto t blocks.flatten := by
  obtain ⟨first, rest, rfl⟩ := List.exists_cons_of_ne_nil hx.ne_nil
  have hopening : first.isOpening = false := by
    cases first with
    | opening start => exact absurd rfl ((hadjoins _ _ rfl).opening start rfl place)
    | _ => rfl
  rw [List.append_assoc, List.cons_append, List.cons_append] at hall
  obtain ⟨bs, b, c, cs, rfl, hisIn, hfirst, hrest⟩ := exists_blocks_adjacent hall
  obtain ⟨isIn, rfl, -, hn⟩ := hisIn.exists_operator
  obtain ⟨token, more, rfl, hle⟩ := hfirst.exists_first
  obtain ⟨cs, ds, rfl, hcs, -⟩ := exists_blocks_append hrest
  obtain ⟨⟨a, ha, hstart⟩, ⟨z, hz, hstop⟩⟩ := hx.within.exists_tokens (.cons hfirst hcs)
  have hsplit : (bs ++ [isIn] :: (token :: more) :: (cs ++ ds)).flatten =
      bs.flatten ++ isIn :: token :: (more ++ cs.flatten ++ ds.flatten) := by simp
  rw [List.flatten_cons, List.cons_append] at ha hz
  refine ⟨bs.flatten, isIn, token, more ++ cs.flatten ++ ds.flatten, z, hsplit, hn, ?_, ?_, hstop⟩
  · -- the operand starts no later than its first token, and with one of its tokens
    have hfront : span.start ≤ token.span.start := (hx.front _ _ rfl hopening).trans hle
    rw [hsplit] at hs
    have hafter := (List.pairwise_cons.1 (List.pairwise_cons.1 (List.pairwise_append.1 hs).2.1).2).1
    rcases List.mem_cons.1 ha with rfl | ha
    · exact hstart
    · have hmem := hafter a (List.mem_append_left _ ha)
      omega
  · exact List.mem_cons.2 ((List.mem_cons.1 hz).imp_right (List.mem_append_left _))

end SyntaxError

/-- What the items say of an error is true of their tokens. -/
theorem Item.Origin.pointsInto {err : SyntaxError} (h : Origin t tokens ws)
    (hs : tokens.Pairwise fun a b => a.span.start ≤ b.span.start) (he : err.ArisesIn ws) :
    err.PointsInto t tokens := by
  have hchain := h.chain
  obtain ⟨body, blocks, rfl, rfl, hall⟩ := h.exists_blocks
  cases he with
  | missingOperand hm => exact exists_names hall hm
  | malformedBetween hm => exact exists_names hall hm
  | @missingOperator before after earlier item hw hearlier hb =>
    rw [hw] at hchain
    have hadjoins := (List.isChain_cons_cons.1 hchain.right_of_append).1
    rcases List.cons_eq_append_iff.1 hw with ⟨rfl, hw⟩ | ⟨before, rfl, rfl⟩
    · cases hw
      cases hearlier
    · exact SyntaxError.pointsInto_missingOperator hall hadjoins hearlier hb
  | @invalidInTarget before target after place span hw hx =>
    rw [List.append_assoc, List.cons_append] at hw
    rw [hw] at hchain
    rcases List.cons_eq_append_iff.1 hw with ⟨rfl, hw⟩ | ⟨before, rfl, rfl⟩
    · cases hw
    · refine SyntaxError.pointsInto_invalidInTarget (by rwa [List.append_assoc])
        (fun first rest htarget => ?_) hx hs
      subst htarget
      exact (List.isChain_cons_cons.1 hchain.right_of_append).1

/-! ## Clauses -/

/-- The tokens of a clause start one after the other. -/
theorem Lexicon.pairwise_start (l : Lexicon) (clause : String) :
    (l.tokenize clause).Pairwise fun a b => a.span.start ≤ b.span.start := by
  have hstart : l.Outstanding 0 0 [] .neutral := ⟨rfl, rfl⟩
  exact (tiles_run hstart clause.toList).tiling.pairwise_start

namespace Parser

variable {σ : Type} {f : Evaluator σ} {p : Parser} {clause : String} {s s' : σ}
  {err : SyntaxError}

theorem pointsInto_of_items (h : p.items clause = .error err) :
    err.PointsInto p.table (p.tokenize clause) := by
  rcases Item.ofTokens_or_unmatched p.table clause.utf8ByteSize (p.tokenize clause) with
    ⟨⟨items, hi⟩, -⟩ | ⟨span, hu, hunmatched⟩
  · cases hi.symm.trans h
  · cases hu.symm.trans h
    cases hunmatched with
    | @closing u w token htokens hc _ => exact ⟨token, by simp [htokens], rfl, .inr hc⟩
    | @opening u w token _ htokens ho => exact ⟨token, by simp [htokens], rfl, .inl ho⟩

theorem pointsInto_of_parse (h : p.parse clause = .error err) :
    err.PointsInto p.table (p.tokenize clause) := by
  rcases parse_eq_error_iff.1 h with h | ⟨items, hi, h⟩
  · exact pointsInto_of_items h
  · obtain ⟨ws, rfl, horigin⟩ := Item.exists_origin_of_ofTokens hi
    exact horigin.pointsInto (p.lexicon.pairwise_start clause) (Phrase.arisesIn_of_ofItems hi h)

theorem pointsInto_of_fails (h : Fails (p.fold f clause) s err s') :
    err.PointsInto p.table (p.tokenize clause) := by
  cases hl : err.isLate with
  | false => exact pointsInto_of_parse (parse_eq_error_of_fails h hl)
  | true =>
    rcases fails_fold_iff.1 h with ⟨h, -⟩ | ⟨items, hi, h⟩
    · exact pointsInto_of_items h
    · obtain ⟨ws, rfl, horigin⟩ := Item.exists_origin_of_ofTokens hi
      exact horigin.pointsInto (p.lexicon.pairwise_start clause)
        (Value.arisesIn_of_ofItems hi h hl)

/-- The errors of reading a clause and of evaluating it on the way, with whatever evaluator, are
about tokens of the clause that are what the error says, and have their place. -/
theorem errors_pointInto (p : Parser) (clause : String) :
    (∀ err, p.parse clause = .error err → err.PointsInto p.table (p.tokenize clause)) ∧
      ∀ (σ : Type) (f : Evaluator σ) (s s' : σ) (err : SyntaxError),
        (p.fold f clause).run.run s = (.error err, s') →
          err.PointsInto p.table (p.tokenize clause) :=
  ⟨fun _ h => pointsInto_of_parse h, fun _ _ _ _ _ h => pointsInto_of_fails h⟩

/-- In the first clause the `NOT` follows a closing parenthesis. In the second one the target of the
`IN` is no list, and its last tokens are parentheses without a value in them. -/
theorem errors_pointInto_not_and_target :
    (standard.parse "(a) NOT b" = .error (.missingOperator ⟨4, 7⟩) ∧
      (SyntaxError.missingOperator ⟨4, 7⟩).PointsInto .standard
        (standard.tokenize "(a) NOT b")) ∧
    ∃ s', (standard.fold numbered "a IN b + -()").run.run 0 =
        (.error (.invalidInTarget ⟨5, 12⟩), s') ∧
      (SyntaxError.invalidInTarget ⟨5, 12⟩).PointsInto .standard
        (standard.tokenize "a IN b + -()") := by
  constructor
  · obtain ⟨err, hp, he⟩ : ∃ err, standard.parse "(a) NOT b" = .error err ∧
        decide (err = .missingOperator ⟨4, 7⟩) = true := exists_eq_error (by decide +kernel)
    obtain rfl := of_decide_eq_true he
    exact ⟨hp, (errors_pointInto standard _).1 _ hp⟩
  · obtain ⟨err, hf, he⟩ : ∃ err, ((standard.fold numbered "a IN b + -()").run.run 0).1 =
        .error err ∧ decide (err = .invalidInTarget ⟨5, 12⟩) = true :=
      exists_eq_error (by decide +kernel)
    obtain rfl := of_decide_eq_true he
    exact ⟨_, Prod.ext hf rfl, (errors_pointInto standard _).2 _ numbered 0 _ _ (Prod.ext hf rfl)⟩

end Parser

end WhereClause
