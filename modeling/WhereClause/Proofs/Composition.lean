import WhereClause.Proofs.Item.Relocation
import WhereClause.Proofs.RoundTrip
import WhereClause.Proofs.Token.Seam

/-!
# Clauses put together

Two clauses in parentheses with an operator between them form a clause, in which each of them means
what it means on its own. Nothing of a clause reaches beyond its parentheses, as long as its quotes
are closed: its last word ends at the parenthesis, its `BETWEEN`s and lists are complete, and the
tokens after it are read as if it were a single operand.
-/

namespace WhereClause

open Grammar Tagging

/-- No quoted text is open at the end of the clause. -/
def Lexicon.Closed (l : Lexicon) (clause : String) : Prop :=
  (l.feed {} clause.toList).2.mode.isQuoted = false

instance (l : Lexicon) (clause : String) : Decidable (l.Closed clause) :=
  inferInstanceAs (Decidable (_ = _))

/-- A clause ends with all its parentheses and lists closed. -/
theorem Tagging.eq_of_finish {state : Tagging} {length : Nat} {items : List Item}
    (h : state.finish length = .ok items) :
    state.capture = none ∧ state.groups = [] ∧
      items = state.items.reverse ++ [.closing (.point length)] := by
  unfold Tagging.finish at h
  split at h
  · cases h
  · cases h
  · rename_i hc hg
    cases h
    exact ⟨hc, hg, List.reverse_cons⟩

namespace Parser

variable {clause a b : String} {ra rb : Parsed} {op : Operator}

/-! ## A clause in parentheses -/

theorem isClause_of_parse {r : Parsed} (h : standard.parse clause = .ok r) :
    ∃ items, standard.items clause = .ok items ∧ IsClause .standard items r.tree := by
  obtain ⟨items, x, hi, hx, rfl⟩ := parse_eq_ok_iff.1 h
  obtain ⟨body, rfl, hb, -⟩ := Item.balanced_of_ofTokens hi
  exact ⟨_, hi, (Phrase.isClause_of_ofItems hb hx).1⟩

/-- The tokens of a clause, in parentheses at any place, are read as one operand. -/
theorem reads_clause {r : Parsed} (h : standard.parse clause = .ok r) {state : Tagging}
    (hs : state.Ready) {opening closing : Token} {tokens : List Token}
    (ho : opening.kind = .punctuation '(') (hc : closing.kind = .punctuation ')')
    (ht : tokens.map Token.kind = (standard.tokenize clause).map Token.kind) :
    Reads (.operand 0) state (opening :: (tokens ++ [closing])) r.tree := by
  obtain ⟨items, hi, -, hd⟩ := isClause_of_parse h
  obtain ⟨last, hlast, hf⟩ := bind_eq_ok_iff.1 hi
  obtain ⟨hcapture, hgroups, rfl⟩ := eq_of_finish hf
  -- the tokens are read from an opening parenthesis with nothing before it
  let start : Tagging := { items := [.opening opening.span] }
  have hstart : start.unplaced = initial.unplaced := rfl
  obtain ⟨⟨found, groups, waiting, capture⟩, hrun, hu⟩ :=
    exists_foldlM_of_unplaced hstart ht hlast
  simp only [unplaced, hcapture, hgroups, Tagging.mk.injEq, List.map_nil, List.map_eq_nil_iff,
    Option.map_none, Option.map_eq_none_iff] at hu
  obtain ⟨halike, rfl, -, rfl⟩ := hu
  -- and then from the state around it
  let outer : Tagging := { state with groups := ⟨opening.span, state.waiting⟩ :: state.groups }
  have henter : within outer start = state.enter opening.span := by
    simp [within, start, outer, Tagging.enter, push, hs.capture]
  have hinner := foldlM_within outer (by simp [start]) hrun
  rw [henter] at hinner
  refine ⟨found.reverse ++ [.closing closing.span], .cons (hs.step_opening ho) (.append hinner
    (run_singleton ?_)), ?_, .bare (hd.of_alike ?_)⟩
  · have hclose : step .standard (within outer ⟨found, [], waiting, none⟩) closing = _ :=
      step_eq_readToken rfl
    rw [hclose]
    unfold readToken
    simp only [hc]
    simp [readClosing, within, outer, extend, push, hs.capture]
  · simp [extend, lacksOperand]
  · rw [Item.Alike, List.map_append, List.map_append, List.map_reverse, List.map_reverse, halike]
    rfl

/-! ## Operators between clauses -/

theorem kinds_of_closed (h : Lexicon.standard.Closed clause) :
    Lexes (Text.parenthesized clause.toList)
      (Expr.enclosed ((standard.tokenize clause).map Token.kind)) True :=
  Expr.lexes_parenthesized (lexes_of_not_isQuoted h)

theorem ready_initial : initial.Ready :=
  ⟨rfl, rfl, rfl⟩

theorem exists_parse_binary (hop : op ∈ OperatorTable.standard.tiers.flatten)
    (har : op.arity = .binary) (hin : op ≠ .isIn) (hcomma : op ≠ .comma)
    (ha : standard.parse a = .ok ra) (hqa : Lexicon.standard.Closed a)
    (hb : standard.parse b = .ok rb) (hqb : Lexicon.standard.Closed b)
    (htext : clause.toList = Text.parenthesized a.toList ++ ' ' :: op.symbol.toList ++
      ' ' :: Text.parenthesized b.toList) :
    ∃ r, standard.parse clause = .ok r ∧ r.tree = .operation op [ra.tree, rb.tree] := by
  have hk := (Expr.Lexes.operator hop hcomma (kinds_of_closed hqa) (kinds_of_closed hqb)).kindsAt_eq
    ⟨trivial, trivial⟩ 0
  rw [← htext] at hk
  obtain ⟨ts, rest, htokens, hts, hrest⟩ := List.map_eq_append_iff.1 hk
  obtain ⟨operator, ts', rfl, hoperator, hts'⟩ := List.map_eq_cons_iff.1 hrest
  obtain ⟨opening, ts, closing, rfl, ho, hts, hc⟩ := exists_of_enclosed hts
  obtain ⟨opening', ts', closing', rfl, ho', hts', hc'⟩ := exists_of_enclosed hts'
  obtain ⟨u, hr, hl, hd⟩ := reads_clause ha ready_initial ho hc hts
  have hready : ((initial.extend u).push (.operator op operator.span)).Ready :=
    ready_operator rfl hin
  refine exists_parse_of_reads ?_
  have htok : standard.tokenize clause = _ := htokens
  rw [htok]
  exact reads_binary rfl rfl hop har hoperator hr hl hd (reads_clause hb hready ho' hc' hts')
    (Expr.binary?_eq hin hcomma _ _)

theorem exists_parse_unary (hop : op ∈ OperatorTable.standard.tiers.flatten)
    (har : op.arity = .unary) (ha : standard.parse a = .ok ra) (hqa : Lexicon.standard.Closed a)
    (htext : clause.toList = op.symbol.toList ++ ' ' :: Text.parenthesized a.toList) :
    ∃ r, standard.parse clause = .ok r ∧ r.tree = .operation op [ra.tree] := by
  have hne {op' : Operator} (h : op'.arity ≠ .unary) : op ≠ op' := by
    rintro rfl
    exact h har
  have hsymbol := Operator.lexes_symbol hop (hne (by decide))
  have hk := (hsymbol.cuts.append_lexes (kinds_of_closed hqa)).kindsAt_eq trivial 0
  rw [List.append_assoc, List.singleton_append, ← htext] at hk
  obtain ⟨operator, ts, htokens, hoperator, hts⟩ := List.map_eq_cons_iff.1 hk
  obtain ⟨opening, ts, closing, rfl, ho, hts, hc⟩ := exists_of_enclosed hts
  obtain ⟨k, hm⟩ := OperatorTable.mem_tiers_iff_exists_tier.1 hop
  have hready : (initial.push (.operator op operator.span)).Ready :=
    ready_operator rfl (hne (by decide))
  refine exists_parse_of_reads ?_
  have htok : standard.tokenize clause = _ := htokens
  rw [htok]
  exact (reads_unary ready_initial hm har hoperator (reads_clause ha hready ho hc hts)).weaken
    (OperatorTable.lt_of_mem_tier hm)

/-- Clauses whose quotes are closed may be put together in parentheses: the tree of the whole is the
operation on their trees. -/
theorem exists_parse_composed (ha : standard.parse a = .ok ra) (hqa : Lexicon.standard.Closed a)
    (hb : standard.parse b = .ok rb) (hqb : Lexicon.standard.Closed b) :
    (∃ r, standard.parse ("(" ++ a ++ ") AND (" ++ b ++ ")") = .ok r ∧
        r.tree = .operation .and [ra.tree, rb.tree]) ∧
      (∃ r, standard.parse ("(" ++ a ++ ") OR (" ++ b ++ ")") = .ok r ∧
        r.tree = .operation .or [ra.tree, rb.tree]) ∧
      ∃ r, standard.parse ("NOT (" ++ a ++ ")") = .ok r ∧ r.tree = .operation .not [ra.tree] := by
  refine ⟨?_, ?_, ?_⟩
  · refine exists_parse_binary (by decide) rfl (by decide) (by decide) ha hqa hb hqb ?_
    simp [Text.parenthesized, Operator.symbol]
  · refine exists_parse_binary (by decide) rfl (by decide) (by decide) ha hqa hb hqb ?_
    simp [Text.parenthesized, Operator.symbol]
  · refine exists_parse_unary (by decide) rfl ha hqa ?_
    simp [Text.parenthesized, Operator.symbol]

/-- The `AND` of a `BETWEEN` does not take the place of the one between the clauses, and a bracket
in a word at the end of a clause does not reach for the parenthesis. -/
theorem parse_between_and_bracket :
    ∃ ra rb, standard.parse "NOT x BETWEEN 1 AND 2" = .ok ra ∧ standard.parse "y = >é" = .ok rb ∧
      Lexicon.standard.Closed "NOT x BETWEEN 1 AND 2" ∧ Lexicon.standard.Closed "y = >é" ∧
      ∃ r, standard.parse "(NOT x BETWEEN 1 AND 2) AND (y = >é)" = .ok r ∧
        r.tree = .operation .and [ra.tree, rb.tree] := by
  obtain ⟨ra, ha⟩ : ∃ r, standard.parse "NOT x BETWEEN 1 AND 2" = .ok r :=
    exists_eq_ok (by decide +kernel)
  obtain ⟨rb, hb⟩ : ∃ r, standard.parse "y = >é" = .ok r := exists_eq_ok (by decide +kernel)
  have hqa : Lexicon.standard.Closed "NOT x BETWEEN 1 AND 2" := by decide +kernel
  have hqb : Lexicon.standard.Closed "y = >é" := by decide +kernel
  exact ⟨ra, rb, ha, hb, hqa, hqb, (exists_parse_composed ha hqa hb hqb).1⟩

end Parser

end WhereClause
