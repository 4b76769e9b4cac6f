import WhereClause.Proofs.Item.Separators
import WhereClause.Proofs.Operator.Agreement
import WhereClause.Value.Fold

/-!
# Items by tables that agree

Words are looked up in a table one by one, so tables that have the same operators for the words of
some tokens make the same items of them. The operators among the items are those that the words
name.

The rules for `Ensures` compare two computations step by step, as long as an invariant holds.
-/

namespace WhereClause

/-! ## Computations in step -/

section Computations

variable {m : Type → Type} [Monad m] [LawfulMonad m] {α β : Type} {Q : α → Prop} {R : β → Prop}

/-- Only values in which `Q` holds come out: what follows matters for no others. -/
def Ensures (x : m α) (Q : α → Prop) : Prop :=
  ∀ ⦃β : Type⦄ ⦃g h : α → m β⦄, (∀ a, Q a → g a = h a) → (x >>= g) = (x >>= h)

omit [LawfulMonad m] in
theorem ensures_true (x : m α) : Ensures x fun _ => True :=
  fun _ _ _ hgh => bind_congr fun a => hgh a trivial

theorem ensures_pure {a : α} (h : Q a) : Ensures (pure a : m α) Q := by
  intro γ g k hgk
  rw [pure_bind, pure_bind, hgk a h]

theorem Ensures.bind {x : m α} {g : α → m β} (hx : Ensures x Q)
    (hg : ∀ a, Q a → Ensures (g a) R) : Ensures (x >>= g) R := by
  intro γ k l hkl
  rw [bind_assoc, bind_assoc]
  exact hx fun a ha => hg a ha hkl

/-- Two folds are the same if their steps are, where an invariant holds that the steps keep. -/
theorem foldlM_congr {f g : α → β → m α} {l : List β}
    (hfg : ∀ a, Q a → ∀ x ∈ l, f a x = g a x) (hf : ∀ a, Q a → ∀ x ∈ l, Ensures (f a x) Q)
    {a : α} (ha : Q a) : l.foldlM f a = l.foldlM g a ∧ Ensures (l.foldlM f a) Q := by
  induction l generalizing a with
  | nil => exact ⟨rfl, ensures_pure ha⟩
  | cons x rest ih =>
    have hrest {b : α} (hb : Q b) := ih (fun a ha y hy => hfg a ha y (List.mem_cons_of_mem x hy))
      (fun a ha y hy => hf a ha y (List.mem_cons_of_mem x hy)) hb
    have hx := hf a ha x List.mem_cons_self
    rw [List.foldlM_cons, List.foldlM_cons, ← hfg a ha x List.mem_cons_self]
    exact ⟨hx fun b hb => (hrest hb).1, hx.bind fun b hb => (hrest hb).2⟩

theorem ensures_iff {ε : Type} {x : Except ε α} : Ensures x Q ↔ ∀ a, x = .ok a → Q a := by
  constructor
  · rintro h a rfl
    -- a value in which `Q` fails would tell these two continuations apart
    have hq : (Except.ok (Q a) : Except ε Prop) = .ok True :=
      @h Prop (fun b => .ok (Q b)) (fun _ => .ok True) fun b hb => by rw [eq_true hb]
    exact of_eq_true (Except.ok.inj hq)
  · intro h γ g k hgk
    cases x with
    | error e => rfl
    | ok a => exact hgk a (h a rfl)

theorem Ensures.lift {σ : Type} {x : Except SyntaxError α} (h : Ensures x Q) :
    Ensures (liftM x : Folding σ α) Q := by
  intro γ g k hgk
  cases x with
  | error e => rfl
  | ok a => exact hgk a (ensures_iff.1 h a rfl)

end Computations

variable {t u : OperatorTable} {tokens : List Token} {U : Operator → Prop}

/-! ## Items -/

/-- If the item is an operator, then `U` holds of it. -/
def Item.Among (U : Operator → Prop) : Item → Prop
  | .operator op _ => U op
  | _ => True

namespace Tagging

variable {state state' : Tagging} {token : Token} {word : String}

theorem readWord_congr (h : t.get? word = u.get? word) (state : Tagging) (span : Span) :
    readWord t state word span = readWord u state word span := by
  unfold readWord
  rw [operatorAt?_eq, operatorAt?_eq, h]

theorem step_congr (h : ∀ word, token.word? = some word → t.get? word = u.get? word)
    (state : Tagging) : step t state token = step u state token := by
  unfold step
  split
  · rfl
  · unfold readToken
    split
    · rfl
    · rfl
    · rfl
    · rw [readWord_congr (h "," (by simp_all [Token.word?]))]
    all_goals
      rename_i hk
      rw [readWord_congr (h _ (by rw [Token.word?, hk]))]

theorem among_readWord (h : ∀ item ∈ state.items, item.Among U) (span : Span)
    (hw : ∀ op, t.get? word = some op → U op ∧ (op = .subtract → U .negate)) :
    ∀ item ∈ (readWord t state word span).items, item.Among U := by
  rw [(items_readWord state word span).2]
  refine List.forall_mem_cons.2 ⟨?_, h⟩
  split
  · trivial
  · unfold Item.ofWord
    split
    · trivial
    · rename_i op hg
      show U _
      split
      · rename_i hs
        exact (hw op hg).2 hs.1
      · exact (hw op hg).1

theorem among_step (h : ∀ item ∈ state.items, item.Among U)
    (hw : ∀ word op, token.word? = some word → t.get? word = some op →
      U op ∧ (op = .subtract → U .negate))
    (hs : step t state token = .ok state') : ∀ item ∈ state'.items, item.Among U := by
  unfold step at hs
  split at hs
  · cases hs
    unfold readListToken
    split
    · exact h
    · dsimp only
      split
      · exact List.forall_mem_cons.2 ⟨trivial, h⟩
      · exact h
    · exact h
  · unfold readToken at hs
    split at hs
    · cases hs
      exact List.forall_mem_cons.2 ⟨trivial, h⟩
    · split at hs <;> cases hs
      · exact h
      · exact List.forall_mem_cons.2 ⟨trivial, h⟩
    · unfold readClosing at hs
      split at hs <;> cases hs
      exact List.forall_mem_cons.2 ⟨trivial, h⟩
    · cases hs
      exact among_readWord h _ fun op => hw "," op (by simp_all [Token.word?])
    all_goals
      rename_i hk
      cases hs
      exact among_readWord h _ fun op => hw _ op (by rw [Token.word?, hk])

theorem among_finish {length : Nat} {items : List Item} (h : ∀ item ∈ state.items, item.Among U)
    (hf : state.finish length = .ok items) : ∀ item ∈ items, item.Among U := by
  unfold finish at hf
  split at hf <;> cases hf
  intro item hm
  rcases List.mem_cons.1 (List.mem_reverse.1 hm) with rfl | hm
  · trivial
  · exact h item hm

end Tagging

/-- Tokens become the same items, and operators among these are named by the tokens. -/
theorem Item.ofTokens_congr (h : t.AgreeOn u tokens) (length : Nat) :
    ofTokens t length tokens = ofTokens u length tokens ∧
      Ensures (ofTokens t length tokens) fun items =>
        ∀ item ∈ items, item.Among (· ∈ t.used tokens) := by
  have hword {token : Token} {word : String} (ht : token ∈ tokens)
      (hw : token.word? = some word) : word ∈ Token.words tokens :=
    List.mem_filterMap.2 ⟨token, ht, hw⟩
  have hsame (state : Tagging) (token : Token) (ht : token ∈ tokens) :
      Tagging.step t state token = Tagging.step u state token :=
    Tagging.step_congr (fun word hw => h.get word (hword ht hw)) state
  have hamong (state : Tagging) (hs : ∀ item ∈ state.items, item.Among (· ∈ t.used tokens))
      (token : Token) (ht : token ∈ tokens) : Ensures (Tagging.step t state token) fun state' =>
        ∀ item ∈ state'.items, item.Among (· ∈ t.used tokens) :=
    ensures_iff.2 fun state' => Tagging.among_step hs fun word op hw hg =>
      ⟨OperatorTable.mem_used_of_get? (hword ht hw) hg,
        fun ho => OperatorTable.negate_mem_used (hword ht hw) (ho ▸ hg)⟩
  have hinitial : ∀ item ∈ Tagging.initial.items, item.Among (· ∈ t.used tokens) := by
    simp [Tagging.initial, Item.Among]
  obtain ⟨heq, hrun⟩ := foldlM_congr (fun state _ => hsame state) hamong hinitial
  rw [ofTokens, ofTokens, ← heq]
  exact ⟨rfl, hrun.bind fun state hs => ensures_iff.2 fun items => Tagging.among_finish hs⟩

end WhereClause
