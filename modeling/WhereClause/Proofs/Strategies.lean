import WhereClause.Parser
import WhereClause.Proofs.Phrase.Completeness
import WhereClause.Proofs.Value.Completeness
import WhereClause.Proofs.Value.Soundness

/-!
# Two ways to evaluate a clause

A clause can be read into a tree that is evaluated afterwards, or evaluated while it is read. Both
ways accept the clauses that the grammar derives, so they accept the same ones; and the evaluator is
called for the same operations, in the same order, with the same operands.
-/

namespace WhereClause

open Grammar

variable {t : OperatorTable} {σ : Type} {f : Evaluator σ} {items : List Item}

/-! ## Items -/

/-- Items are folded into a value exactly if they are read into a phrase. -/
theorem Value.exists_gives_iff {length : Nat} {tokens : List Token}
    (h : Item.ofTokens t length tokens = .ok items) (s : σ) :
    (∃ x, Phrase.ofItems t items = .ok x) ↔ ∃ v s', Gives (Value.ofItems f t items) s v s' := by
  obtain ⟨body, rfl, hb, hk⟩ := Item.balanced_of_ofTokens h
  constructor
  · rintro ⟨x, hx⟩
    exact ⟨_, _, Value.gives_ofItems (Phrase.isClause_of_ofItems hb hx).1 s⟩
  · rintro ⟨v, s', hv⟩
    obtain ⟨e, he⟩ := Value.exists_isClause hb hk hv
    obtain ⟨x, hx, -⟩ := Phrase.exists_ofItems he
    exact ⟨x, hx⟩

/-! ## Clauses -/

namespace Parser

variable {p : Parser} {clause : String}

theorem parse_eq_ok_iff {r : Parsed} :
    p.parse clause = .ok r ↔ ∃ items x, p.items clause = .ok items ∧
      Phrase.ofItems p.table items = .ok x ∧
      r = ⟨p.tokenize clause, x.node, .ofItems items, x.expr⟩ := by
  unfold parse
  simp only [bind_eq_ok_iff, Except.ok.injEq, eq_comm (b := r), exists_and_left]

theorem gives_fold_iff {v : Value} {s s' : σ} :
    Gives (p.fold f clause) s v s' ↔ ∃ items, p.items clause = .ok items ∧
      Gives (Value.ofItems f p.table items) s v s' := by
  unfold fold
  rw [gives_bind_iff]
  constructor
  · rintro ⟨items, s₁, hl, hv⟩
    obtain ⟨hi, rfl⟩ := gives_liftExcept_iff.1 hl
    exact ⟨items, hi, hv⟩
  · rintro ⟨items, hi, hv⟩
    exact ⟨items, s, gives_liftExcept_iff.2 ⟨hi, rfl⟩, hv⟩

theorem gives_fold_of_parse {r : Parsed} (h : p.parse clause = .ok r) (s : σ) :
    Gives (p.fold f clause) s (r.tree.evaluate f s).1 (r.tree.evaluate f s).2 := by
  obtain ⟨items, x, hi, hx, rfl⟩ := parse_eq_ok_iff.1 h
  obtain ⟨body, rfl, hb, -⟩ := Item.balanced_of_ofTokens hi
  exact gives_fold_iff.2 ⟨_, hi, Value.gives_ofItems (Phrase.isClause_of_ofItems hb hx).1 s⟩

/-- The evaluator that answers a call with the number of calls before it. -/
def numbered : Evaluator Nat := fun _ _ n =>
  (.integer (.ofNat n), n + 1)

/-- A clause is read into a tree exactly if it is evaluated while it is read, from any state of any
evaluator. Its value and the evaluator's state afterwards are those of the tree, and so is the
record of the evaluator's calls. -/
theorem exists_parse_iff_fold (p : Parser) (clause : String) (f : Evaluator σ) (s : σ) :
    ((∃ r, p.parse clause = .ok r) ↔ ∃ v s', (p.fold f clause).run.run s = (.ok v, s')) ∧
      ∀ r, p.parse clause = .ok r →
        (p.fold f clause).run.run s = (.ok (r.tree.evaluate f s).1, (r.tree.evaluate f s).2) ∧
        (p.fold f.recorded clause).run.run (s, []) =
          (.ok (r.tree.evaluate f.recorded (s, [])).1, (r.tree.evaluate f.recorded (s, [])).2) := by
  refine ⟨⟨?_, ?_⟩, fun r hr => ⟨gives_fold_of_parse hr s, gives_fold_of_parse hr (s, [])⟩⟩
  · rintro ⟨r, hr⟩
    exact ⟨_, _, gives_fold_of_parse hr s⟩
  · rintro ⟨v, s', hv⟩
    obtain ⟨items, hi, hv⟩ := gives_fold_iff.1 hv
    obtain ⟨x, hx⟩ := (Value.exists_gives_iff hi s).2 ⟨v, s', hv⟩
    exact ⟨_, parse_eq_ok_iff.2 ⟨items, x, hi, hx, rfl⟩⟩

/-- An evaluator that numbers its calls: `-`, `NOT`, `+`, `BETWEEN`, `IN` and `OR`, in this
order. -/
theorem fold_numbered :
    ∃ r, standard.parse "NOT -a BETWEEN 1 AND b + 1 OR c IN (1, 2)" = .ok r ∧
      (standard.fold numbered "NOT -a BETWEEN 1 AND b + 1 OR c IN (1, 2)").run.run 0 =
        (.ok (r.tree.evaluate numbered 0).1, (r.tree.evaluate numbered 0).2) := by
  obtain ⟨r, hr⟩ : ∃ r, standard.parse "NOT -a BETWEEN 1 AND b + 1 OR c IN (1, 2)" = .ok r :=
    exists_eq_ok (by decide +kernel)
  exact ⟨r, hr, ((exists_parse_iff_fold standard _ numbered 0).2 r hr).1⟩

end Parser

end WhereClause
