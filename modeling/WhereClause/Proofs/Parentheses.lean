import WhereClause.Proofs.Phrase.Places
import WhereClause.Proofs.Rejection

/-!
# Clauses with unmatched parentheses

A clause can be grouped, read into a tree or evaluated on the way. If its parentheses do not pair
up, all three refuse it for the same parenthesis, before anything else is looked at. If they do,
then none of them names a parenthesis: the items are balanced, so whatever closes has been opened.
-/

namespace WhereClause

/-- Whether the error is a parenthesis without a partner. -/
def SyntaxError.isUnmatched : SyntaxError → Bool
  | .unmatchedParenthesis _ => true
  | _ => false

/-- An error that arises in the items of a clause is no unmatched parenthesis. -/
theorem SyntaxError.ArisesIn.not_isUnmatched {items : List Item} {err : SyntaxError}
    (h : err.ArisesIn items) : err.isUnmatched = false := by
  cases h <;> rfl

/-! ## Clauses -/

namespace Parser

variable {σ : Type} {f : Evaluator σ} {p : Parser} {clause : String} {s s' : σ}
  {err : SyntaxError}

theorem exists_items (hb : Token.Balanced (p.tokenize clause)) :
    ∃ items, p.items clause = .ok items := by
  rcases Item.ofTokens_or_unmatched p.table clause.utf8ByteSize (p.tokenize clause) with
    ⟨hi, -⟩ | ⟨span, -, hu⟩
  · exact hi
  · exact absurd hb hu.not_balanced

theorem exists_unmatched (hb : ¬ Token.Balanced (p.tokenize clause)) :
    ∃ span, p.items clause = .error (.unmatchedParenthesis span) ∧
      Token.Unmatched (p.tokenize clause) span := by
  rcases Item.ofTokens_or_unmatched p.table clause.utf8ByteSize (p.tokenize clause) with
    ⟨-, hb'⟩ | hu
  · exact absurd hb' hb
  · exact hu

theorem not_isUnmatched_of_parse (hb : Token.Balanced (p.tokenize clause))
    (h : p.parse clause = .error err) : err.isUnmatched = false := by
  obtain ⟨items, hi⟩ := exists_items hb
  rcases parse_eq_error_iff.1 h with he | ⟨items', hi', h⟩
  · cases hi.symm.trans he
  · obtain ⟨ws, rfl, -⟩ := Item.exists_origin_of_ofTokens hi'
    exact (Phrase.arisesIn_of_ofItems hi' h).not_isUnmatched

theorem not_isUnmatched_of_fold (hb : Token.Balanced (p.tokenize clause))
    (h : Fails (p.fold f clause) s err s') : err.isUnmatched = false := by
  -- an unmatched parenthesis is found on arrival, so reading would refuse the clause for it too
  cases he : err.isLate with
  | true => cases err <;> first | rfl | cases he
  | false => exact not_isUnmatched_of_parse hb (parse_eq_error_of_fails h he)

/-- A clause is grouped exactly if its parentheses are balanced. If they are not, then grouping,
reading and evaluating it all refuse it for the one parenthesis that is unmatched, and no operator
is evaluated; if they are, then no parenthesis is the reason of a refusal. -/
theorem parentheses_decide (p : Parser) (clause : String) (f : Evaluator σ) (s : σ) :
    ((∃ err, p.group clause = .error err) ↔ ¬ Token.Balanced (p.tokenize clause)) ∧
    (¬ Token.Balanced (p.tokenize clause) → ∃ span,
      (∀ other, Token.Unmatched (p.tokenize clause) other ↔ other = span) ∧
      p.group clause = .error (.unmatchedParenthesis span) ∧
      p.parse clause = .error (.unmatchedParenthesis span) ∧
      (p.fold f clause).run.run s = (.error (.unmatchedParenthesis span), s) ∧
      (p.fold f.recorded clause).run.run (s, []) =
        (.error (.unmatchedParenthesis span), (s, []))) ∧
    (Token.Balanced (p.tokenize clause) → ∀ span,
      p.parse clause ≠ .error (.unmatchedParenthesis span) ∧
      ∀ s', (p.fold f clause).run.run s ≠ (.error (.unmatchedParenthesis span), s')) := by
  refine ⟨⟨?_, fun hb => ?_⟩, fun hb => ?_, fun hb span => ⟨fun h => ?_, fun s' h => ?_⟩⟩
  · rintro ⟨err, h⟩ hb
    obtain ⟨items, hi⟩ := exists_items hb
    rw [group, hi] at h
    cases h
  · obtain ⟨span, hi, -⟩ := exists_unmatched hb
    exact ⟨.unmatchedParenthesis span, by rw [group, hi, error_bind]⟩
  · obtain ⟨span, hi, hu⟩ := exists_unmatched hb
    refine ⟨span, fun other => ⟨fun ho => ho.unique hu, ?_⟩, ?_, parse_eq_error_iff.2 (.inl hi),
      fails_fold_iff.2 (.inl ⟨hi, rfl⟩), fails_fold_iff.2 (.inl ⟨hi, rfl⟩)⟩
    · rintro rfl
      exact hu
    · rw [group, hi, error_bind]
  · cases not_isUnmatched_of_parse hb h
  · cases not_isUnmatched_of_fold hb h

/-- In the first clause the `OR` lacks an operand, but what is reported is the parenthesis of the
list: the one before it is not closed either, the one after it is. The second clause has the same
mistake and no other. -/
theorem parentheses_decide_open_list :
    (standard.parse "(a OR) + (b IN (1, (2)" = .error (.unmatchedParenthesis ⟨15, 16⟩) ∧
      (standard.fold numbered.recorded "(a OR) + (b IN (1, (2)").run.run (0, []) =
        (.error (.unmatchedParenthesis ⟨15, 16⟩), (0, []))) ∧
    (∃ err, standard.parse "(a OR) + (b IN (1, (2)))" = .error err) ∧
      ∀ span, standard.parse "(a OR) + (b IN (1, (2)))" ≠ .error (.unmatchedParenthesis span) := by
  obtain ⟨-, hopen, -⟩ := parentheses_decide standard "(a OR) + (b IN (1, (2)" numbered 0
  obtain ⟨-, -, hclosed⟩ := parentheses_decide standard "(a OR) + (b IN (1, (2)))" numbered 0
  constructor
  · obtain ⟨err, he, hspan⟩ : ∃ err, standard.group "(a OR) + (b IN (1, (2)" = .error err ∧
        decide (err = .unmatchedParenthesis ⟨15, 16⟩) = true :=
      exists_eq_error (by decide +kernel)
    obtain rfl := of_decide_eq_true hspan
    obtain ⟨span, -, hg, hp, -, hf⟩ := hopen (by decide +kernel)
    cases he.symm.trans hg
    exact ⟨hp, hf⟩
  · obtain ⟨err, he, -⟩ : ∃ err, standard.parse "(a OR) + (b IN (1, (2)))" = .error err ∧
        true = true := exists_eq_error (p := fun _ => true) (by decide +kernel)
    exact ⟨⟨err, he⟩, fun span => (hclosed (by decide +kernel) span).1⟩

end Parser

end WhereClause
