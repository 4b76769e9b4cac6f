import WhereClause.Proofs.Expr.WellFormed
import WhereClause.Proofs.Item.Origin

/-!
# Items that can be written down

If no token of a clause is a float, and its strings can be read back from their texts, then all
operands among its items are well formed: each of them is read again from its own text. This holds
in the lists after `IN` too, where a number may have taken a sign.
-/

namespace WhereClause

open Lexicon

/-! ## Tokens -/

namespace Token.Kind

/-- A token that is no float and, if it is a string, can be read back from its text: no odd run of
backslashes stands at its end or, when all kinds of quotes occur in it, directly before a double
quote. -/
def Durable : Token.Kind → Prop
  | .literal (.float _) _ => False
  | .literal (.string text) _ => ¬ Text.Protects text.toList ∧
    ((∀ quote ∈ Operand.quotes, quote ∈ text.toList) → Operand.Exposed '"' text.toList)
  | _ => True

instance (k : Token.Kind) : Decidable k.Durable := by
  unfold Durable
  split <;> infer_instance

end Token.Kind

/-- A literal of a token can be written down, also in a list after `IN`. -/
theorem Lexicon.Lexical.wellFormed {k : Token.Kind} (h : Lexical k) (hd : k.Durable)
    {value : Literal} {quote : Option Char} (hk : k = .literal value quote) (listed : Bool) :
    (Operand.literal value).WellFormed listed := by
  cases h with
  | @symbol symbol span =>
    exfalso
    revert hk
    unfold Token.ofSymbol
    split <;> simp
  | @word word span hw =>
    rw [ofWord_kind] at hk hd
    cases hv : Literal.ofWord? (String.ofList word) with
    | none => simp [hv] at hk
    | some v =>
      simp only [hv] at hk hd
      cases hk
      cases value with
      | integer n =>
        have hn := Literal.nonneg_of_ofWord? hw.minus_not_mem hv
        cases listed with
        | false => exact hn
        | true =>
          rintro rfl
          exact absurd hn (by decide)
      | null | boolean => trivial
      | float => exact hd
      | string => exact hd
  | quoted =>
    cases hk
    exact hd

/-! ## Literal lists -/

theorem Operand.wellFormed_negated {v value : Literal} (h : v.negated? = some value)
    (hf : ∀ x, v ≠ .float x) : (Operand.literal value).WellFormed true := by
  have hne := Capture.negated?_ne_minValue h
  cases v with
  | integer n =>
    rw [Literal.negated?] at h
    split at h
    · cases h
    · cases h
      exact fun he => hne (congrArg _ he)
  | float x => exact absurd rfl (hf x)
  | _ => cases h

theorem Element.wellFormed_collapse {es : List Element} (h : ∀ e ∈ es, e.toExpr.WellFormed true) :
    (Expr.list (toExprs (collapse es))).WellFormed true := by
  unfold collapse
  split
  · rename_i inner
    exact h (.list inner) (by simp)
  · rename_i hne
    rw [toExprs_eq]
    refine .listed (fun inner hinner => ?_) fun x hx => ?_
    · obtain ⟨e, rfl, he⟩ := List.map_eq_singleton_iff.1 hinner
      cases e with
      | operand x => cases he
      | list inner' => exact hne inner' rfl
    · obtain ⟨e, he, rfl⟩ := List.mem_map.1 hx
      exact h e he

/-- The elements of a literal list can be written down. -/
theorem Token.Lists.wellFormed {tokens : List Token} {es : List Element} (h : Lists tokens es)
    (hl : ∀ token ∈ tokens, Lexical token.kind) (hd : ∀ token ∈ tokens, token.kind.Durable) :
    ∀ e ∈ es, e.toExpr.WellFormed true := by
  induction h with
  | nil => simp
  | comma _ _ ih =>
    exact ih (List.forall_mem_cons.1 hl).2 (List.forall_mem_cons.1 hd).2
  | @signed minus number rest v value es _ hn hv _ ih =>
    simp only [List.forall_mem_cons] at hl hd
    refine List.forall_mem_cons.2 ⟨.operand (Operand.wellFormed_negated hv ?_), ih hl.2.2 hd.2.2⟩
    rintro x rfl
    rw [hn] at hd
    exact hd.2.1
  | @literal token rest value quote es hk _ ih =>
    simp only [List.forall_mem_cons] at hl hd
    exact List.forall_mem_cons.2 ⟨.operand (hl.1.wellFormed hd.1 hk true), ih hl.2 hd.2⟩
  | @name token rest text es hk _ ih =>
    simp only [List.forall_mem_cons] at hl hd
    have hp := hl.1.proper
    rw [hk] at hp
    refine List.forall_mem_cons.2 ⟨.operand (Operand.wellFormed_identifier_iff.2 ?_), ih hl.2 hd.2⟩
    exact .inl ⟨hp.1, hp.2, by simp⟩
  | @symbol token rest text es hk _ _ ih =>
    simp only [List.forall_mem_cons] at hl hd
    have hp := hl.1.proper
    rw [hk] at hp
    exact List.forall_mem_cons.2
      ⟨.operand (Operand.wellFormed_identifier_iff.2 (.inr ⟨rfl, hp⟩)), ih hl.2 hd.2⟩
  | @mark token rest c es hk ho hc hcomma _ _ =>
    -- a standard lexer has no other marks
    have hp := (hl token (by simp)).proper
    rw [hk] at hp
    rcases hp with rfl | rfl | rfl <;> contradiction
  | @nested opening closing inner rest es listed es' _ _ hc _ _ ih ih' =>
    simp only [List.cons_append, List.forall_mem_cons, List.forall_mem_append] at hl hd
    rw [Element.collapses_iff] at hc
    subst hc
    exact List.forall_mem_cons.2
      ⟨Element.wellFormed_collapse (ih hl.2.1 hd.2.1), ih' hl.2.2.2 hd.2.2.2⟩

/-! ## Items -/

namespace Item

/-- The operands of the item can be written down. -/
def Legible : Item → Prop
  | .operand x _ => x.WellFormed false
  | .list elements _ => (Expr.list (Element.toExprs elements)).WellFormed true
  | _ => True

theorem legible_of_becomes {ws : List Item} {token : Token} {item : Item}
    (h : token.Becomes .standard ws item) (hl : Lexical token.kind) (hd : token.kind.Durable) :
    item.Legible := by
  cases h with
  | literal hk => exact hl.wellFormed hd hk false
  | @name word ho hw =>
    have hnone := ho.2.2 word hw
    have hp := hl.proper
    unfold Token.word? at hw
    cases hk : token.kind with
    | literal => simp [hk] at hw
    | identifier text =>
      simp only [hk, Option.some.injEq] at hw hp
      subst hw
      show Operand.WellFormed false (.identifier text)
      exact Operand.wellFormed_identifier_iff.2 (.inl ⟨hp.1, hp.2, fun _ => hnone⟩)
    | operator text =>
      simp only [hk, Option.some.injEq] at hw hp
      subst hw
      exact absurd hnone (Operand.get?_symbol hp.1 hp.2)
    | punctuation mark =>
      rw [hk] at hp
      rcases hp with rfl | rfl | rfl
      · exact absurd (Token.isOpening_iff.2 hk) (by simp [ho.1])
      · exact absurd (Token.isClosing_iff.2 hk) (by simp [ho.2.1])
      · simp only [hk] at hw
        obtain rfl : "," = word := Option.some.inj hw
        exact absurd hnone (by decide +kernel)
  | operator | negate | separator | opening | closing => trivial

theorem Origin.legible {tokens : List Token} {ws : List Item} (h : Origin .standard tokens ws)
    (hl : ∀ token ∈ tokens, Lexical token.kind) (hd : ∀ token ∈ tokens, token.kind.Durable) :
    ∀ item ∈ ws, item.Legible := by
  induction h with
  | start => simp [Legible]
  | token _ hb ih =>
    rw [List.forall_mem_append] at hl hd
    have hitem := legible_of_becomes hb (hl.2 _ (by simp)) (hd.2 _ (by simp))
    exact List.forall_mem_append.2 ⟨ih hl.1 hd.1, by simpa using hitem⟩
  | list _ _ _ hes _ ih =>
    simp only [List.cons_append, List.forall_mem_append, List.forall_mem_cons] at hl hd
    have hitem := Element.wellFormed_collapse (hes.wellFormed hl.2.2.1 hd.2.2.1)
    exact List.forall_mem_append.2 ⟨ih hl.1 hd.1, by simpa [Legible] using hitem⟩

end Item

end WhereClause
