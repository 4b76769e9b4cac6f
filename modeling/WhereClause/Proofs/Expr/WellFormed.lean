import WhereClause.Proofs.RoundTrip

/-!
# Trees that are written by hand

A tree need not come from a clause. If it is put together from operators with the right number of
operands, lists and leaves that mean the same inside of a text as on their own, then its text is a
clause, and the tree of this clause is the given one.

The predicate `Expr.WellFormed` says so without a word about reading, apart from names, which have
to be words of their own. It has no floats, so the trees are equal, and not only equal as numbers.
-/

namespace WhereClause

open Lexicon

/-! ## Leaves -/

namespace Operand

/-- A leaf that can be written down, in a list after `IN` if `listed` holds. Numbers with a sign and
names of operators stand in such lists only. -/
def WellFormed (listed : Bool) : Operand → Prop
  | .literal .null => True
  | .literal (.boolean _) => True
  | .literal (.integer n) => if listed then n ≠ Int64.minValue else 0 ≤ n
  | .literal (.float _) => False
  | .literal (.string text) => ¬ Text.Protects text.toList ∧
    ((∀ quote ∈ quotes, quote ∈ text.toList) → Exposed '"' text.toList)
  | .identifier name =>
    let kinds := (Lexicon.standard.tokenize name).map Token.kind
    if listed then kinds = [.identifier name] ∨ kinds = [.operator name]
    else kinds = [.identifier name] ∧ OperatorTable.standard.get? name = none

variable {listed : Bool}

/-- What is asked of a string is what is needed to read it back. -/
theorem WellFormed.quotable {text : String}
    (h : WellFormed listed (.literal (.string text))) : Quotable text.toList :=
  ⟨h.1, (exposed_quoteOf_iff _).2 h.2⟩

/-- A token of a standard lexer that says what the whole text says. -/
theorem proper_of_tokenize {name : String} {k : Token.Kind}
    (h : (Lexicon.standard.tokenize name).map Token.kind = [k]) : k.Proper := by
  have hm : k ∈ (Lexicon.standard.tokenize name).map Token.kind := by rw [h]; simp
  obtain ⟨t, ht, rfl⟩ := List.mem_map.1 hm
  exact (lexical_tokenize name t ht).proper

/-- The names that are words of their own are those that a parser gives. -/
theorem wellFormed_identifier_iff {name : String} :
    WellFormed listed (.identifier name) ↔ IsName listed name := by
  have hword : (Lexicon.standard.tokenize name).map Token.kind = [.identifier name] ↔
      IsWord name.toList ∧ Literal.ofWord? name = none := by
    refine ⟨proper_of_tokenize, fun ⟨hw, hn⟩ => ?_⟩
    have hl := (lexes_name hw (by rwa [String.ofList_toList])).kindsAt_eq trivial 0
    rwa [String.ofList_toList] at hl
  have hsymbol : (Lexicon.standard.tokenize name).map Token.kind = [.operator name] ↔
      name.toList ∈ Lexicon.standard.symbols ∧ name ∉ ["(", ")", ","] := by
    refine ⟨proper_of_tokenize, fun ⟨hm, hp⟩ => ?_⟩
    have hl := (lexes_symbol hm (by rwa [String.ofList_toList])).kindsAt_eq trivial 0
    rwa [String.ofList_toList] at hl
  cases listed <;> simp [WellFormed, IsName, hword, hsymbol, and_assoc]

theorem IsName.minus_not_mem {name : String} (h : IsName listed name) :
    '-' ∉ name.toList.tail ∧ (listed = false → name.toList.head? ≠ some '-') := by
  rcases h with ⟨hw, -⟩ | ⟨rfl, hm, -⟩
  · exact ⟨fun hc => hw.minus_not_mem (List.mem_of_mem_tail hc),
      fun _ hc => hw.minus_not_mem (List.mem_of_head? hc)⟩
  · have htail : ∀ s ∈ Lexicon.standard.symbols, '-' ∉ s.tail := by decide
    exact ⟨htail _ hm, by simp⟩

theorem minus_not_mem_integer (n : Int64) :
    '-' ∉ (Operand.literal (.integer n)).write.tail ∧
      (0 ≤ n → (Operand.literal (.integer n)).write.head? ≠ some '-') := by
  have hdigits : '-' ∉ Nat.toDigits 10 n.toInt.natAbs := by
    intro hm
    have := Decimal.isDigits_toDigits n.toInt.natAbs
    simp only [Decimal.isDigits, Bool.and_eq_true, List.all_eq_true] at this
    exact absurd (this.2 _ hm) (by decide)
  have hw : (Operand.literal (.integer n)).write =
      (if n.toInt < 0 then ['-'] else []) ++ Nat.toDigits 10 n.toInt.natAbs :=
    Decimal.toList_repr _
  rw [hw]
  constructor
  · split
    · exact hdigits
    · exact fun hm => hdigits (List.mem_of_mem_tail hm)
  · intro hn hm
    have hn : ¬ n.toInt < 0 := Int.not_lt.2 (Int64.le_iff_toInt_le.1 hn)
    rw [if_neg hn, List.nil_append] at hm
    exact hdigits (List.mem_of_head? hm)

/-- A well-formed leaf has a text that can be read, falls into no parts, and has no sign unless it
stands in a list after `IN`. -/
theorem WellFormed.legible {x : Operand} (h : x.WellFormed listed) :
    x.Readable listed ∧ x.Legible ∧ (listed || x.write.head? != some '-') = true := by
  have hhead (hp : listed = false → x.write.head? ≠ some '-') :
      (listed || x.write.head? != some '-') = true := by
    cases listed with
    | true => rfl
    | false => simpa using hp rfl
  cases x with
  | identifier name =>
    have hn := wellFormed_identifier_iff.1 h
    exact ⟨hn, hn.minus_not_mem.1, hhead hn.minus_not_mem.2⟩
  | literal value =>
    cases value with
    | null => exact ⟨Literal.written_null, by decide, by cases listed <;> decide⟩
    | boolean b =>
      refine ⟨Literal.written_boolean b, by cases b <;> decide, ?_⟩
      cases listed <;> cases b <;> decide
    | float y => exact h.elim
    | string text =>
      refine ⟨trivial, h.quotable, hhead fun _ hm => ?_⟩
      have hq := quoteOf_mem text.toList
      rw [write, writeString_eq, List.cons_append, List.head?_cons, Option.some.injEq] at hm
      rw [hm] at hq
      exact absurd hq (by decide)
    | integer n =>
      obtain ⟨htail, hfront⟩ := minus_not_mem_integer n
      refine ⟨Literal.written_integer ?_, htail, hhead fun hl => hfront ?_⟩
      · cases listed with
        | true => exact h
        | false =>
          rintro rfl
          have h : (0 : Int64) ≤ Int64.minValue := h
          exact absurd h (by decide)
      · subst hl
        exact h

/-- Operands without floats are equal if they are equal as values. -/
theorem WellFormed.eq_of_beq {x y : Operand} (hy : y.WellFormed listed) (h : (x == y) = true) :
    x = y := by
  cases x with
  | identifier name =>
    cases y with
    | identifier name' =>
      have h : (name == name') = true := h
      rw [LawfulBEq.eq_of_beq h]
    | literal value => cases h
  | literal value =>
    cases y with
    | identifier name => cases h
    | literal value' =>
      cases value <;> cases value' <;> first
        | rfl
        | cases h
        | exact hy.elim
        | exact congrArg _ (congrArg _ (LawfulBEq.eq_of_beq h))

end Operand

/-! ## Trees -/

namespace Expr

/-- A tree that can be written down, in a list after `IN` if `listed` holds. There only operands
and lists stand, and no list has a list as its only element. In the rest of the tree no list has one
element or holds other lists, and every operator has the operands that it needs. -/
inductive WellFormed : Bool → Expr → Prop
  | operand {listed : Bool} {x : Operand} : x.WellFormed listed → WellFormed listed (.operand x)
  | list {items : List Expr} : items.length ≠ 1 → (∀ e ∈ items, e.isList = false) →
    (∀ e ∈ items, WellFormed false e) → WellFormed false (.list items)
  | listed {items : List Expr} : (∀ inner, items ≠ [.list inner]) →
    (∀ e ∈ items, WellFormed true e) → WellFormed true (.list items)
  | isIn {x : Expr} {items : List Expr} : WellFormed false x → WellFormed true (.list items) →
    WellFormed false (.operation .isIn [x, .list items])
  | operation {op : Operator} {operands : List Expr} :
    op ∈ OperatorTable.standard.tiers.flatten → op ≠ .isIn → op ≠ .comma →
    operands.length = op.arity.count → (∀ e ∈ operands, WellFormed false e) →
    WellFormed false (.operation op operands)

variable {listed : Bool} {e : Expr}

theorem WellFormed.shaped (h : WellFormed listed e) : Shaped Operand.WellFormed listed e := by
  induction h with
  | operand hx => exact .operand hx
  | list _ hn _ ih => exact .list ih (fun _ => hn) (by simp)
  | listed hs _ ih => exact .list ih (by simp) fun _ => hs
  | isIn _ _ ihx ihy => exact .isIn ihx ihy
  | operation hm hne hc hlen _ ih => exact .operation hm hne hc hlen ih

theorem WellFormed.regular (h : WellFormed listed e) : e.regular listed = true := by
  induction h with
  | operand hx =>
    rw [Expr.regular]
    exact hx.legible.2.2
  | list hlen _ _ ih =>
    rw [Expr.regular, Bool.false_or, Bool.and_eq_true_iff]
    exact ⟨by simpa using hlen, regularAll_iff.2 ih⟩
  | listed _ _ ih =>
    rw [Expr.regular, Bool.true_or, Bool.true_and]
    exact regularAll_iff.2 ih
  | isIn _ _ ihx ihy => rw [Expr.regular, ihx, ihy]; rfl
  | operation _ hne _ _ _ ih =>
    rw [regular_operation hne, Bool.not_false, Bool.true_and]
    exact regularAll_iff.2 ih

/-- Trees are equal if they are equal up to floats and one of them has none. -/
theorem eq_of_same {a b : Expr} (h : a.same b = true)
    (hb : ∀ x ∈ b.leaves, ∃ listed, x.WellFormed listed) : a = b := by
  have hall {xs : List Expr} (ih : ∀ a ∈ xs, ∀ b : Expr, a.same b = true →
      (∀ x ∈ b.leaves, ∃ listed, x.WellFormed listed) → a = b) {ys : List Expr}
      (h : sameAll xs ys = true) (hy : ∀ x ∈ ys.flatMap leaves, ∃ listed, x.WellFormed listed) :
      xs = ys := by
    induction xs generalizing ys with
    | nil =>
      cases ys with
      | nil => rfl
      | cons y ys => cases h
    | cons x xs ihx =>
      cases ys with
      | nil => cases h
      | cons y ys =>
        rw [sameAll, Bool.and_eq_true_iff] at h
        rw [List.flatMap_cons, List.forall_mem_append] at hy
        rw [ih x (by simp) y h.1 hy.1, ihx (fun a ha => ih a (List.mem_cons_of_mem x ha)) h.2 hy.2]
  induction a using induction_subtrees generalizing b with
  | operand x =>
    cases b with
    | operand y =>
      obtain ⟨listed, hy⟩ := hb y (by simp [leaves])
      exact congrArg _ (hy.eq_of_beq h)
    | _ => cases h
  | list xs ih =>
    cases b with
    | list ys =>
      rw [leaves_list] at hb
      exact congrArg _ (hall (fun a ha b => ih a ha) h hb)
    | _ => cases h
  | operation op xs ih =>
    cases b with
    | operation op' ys =>
      rw [same, Bool.and_eq_true_iff] at h
      rw [leaves_operation] at hb
      rw [LawfulBEq.eq_of_beq h.1, hall (fun a ha b => ih a ha) h.2 hb]
    | _ => cases h

end Expr

/-! ## Reading -/

/-- The text of a well-formed tree is a clause with this tree. -/
theorem Parser.exists_parse_render_eq {e : Expr} (h : e.WellFormed false) :
    ∃ r, standard.parse e.render = .ok r ∧ r.tree = e := by
  have hleaf := h.shaped.leaf
  have hshape := h.shaped.imp fun x _ listed (hx : x.WellFormed listed) => hx.legible.1
  have hlegible : ∀ x ∈ e.leaves, x.Quotes ∧ x.Whole := fun x hx => by
    obtain ⟨listed, hw⟩ := hleaf x hx
    exact x.legible_iff.1 hw.legible.2.1
  obtain ⟨r, hr, hiff⟩ := exists_parse_render hshape (fun x hx => (hlegible x hx).1)
    fun x hx => (hlegible x hx).2
  exact ⟨r, hr, Expr.eq_of_same (hiff.2 h.regular) hleaf⟩

/-- A negated `BETWEEN` with a prefix minus, beside a literal list with operators and a number with
a sign in it. -/
theorem Parser.parse_render_not_between_or_in :
    let e : Expr := .operation .or
      [.operation .not [.operation .between [.operand (.identifier "a"),
        .operation .negate [.operand (.identifier "b")], .operand (.literal (.string "'\""))]],
       .operation .isIn [.list [], .list [.operand (.identifier "AND"),
        .operand (.literal (.integer (-1))), .list [.operand (.identifier "-")]]]]
    e.WellFormed false ∧ ∃ r, standard.parse e.render = .ok r ∧ r.tree = e := by
  intro e
  have hname {listed : Bool} {name : String} (hne : name.toList ≠ [])
      (hp : ∀ c ∈ name.toList, Plain c)
      (hq : ∀ c ∈ name.toList.head?, Lexicon.standard.isQuote c = false)
      (hn : (Literal.ofWord? name).isNone = true)
      (hg : listed = false → OperatorTable.standard.get? name = none) :
      (Expr.operand (.identifier name)).WellFormed listed :=
    .operand (Operand.wellFormed_identifier_iff.2
      (.inl ⟨isWord_of_plain hne hp hq, Option.isNone_iff_eq_none.1 hn, hg⟩))
  have hminus : (Expr.operand (.identifier "-")).WellFormed true :=
    .operand (Operand.wellFormed_identifier_iff.2 (.inr ⟨rfl, by decide, by decide⟩))
  have hwf : e.WellFormed false := by
    refine .operation (by decide) (by decide) (by decide) rfl ?_
    simp only [List.forall_mem_cons, List.not_mem_nil, false_implies, implies_true, and_true]
    constructor
    · refine .operation (by decide) (by decide) (by decide) rfl ?_
      simp only [List.forall_mem_singleton]
      refine .operation (by decide) (by decide) (by decide) rfl ?_
      simp only [List.forall_mem_cons, List.not_mem_nil, false_implies, implies_true, and_true]
      refine ⟨hname (by decide) (by decide) (by decide) (by decide +kernel) fun _ => by
          decide +kernel,
        .operation (by decide) (by decide) (by decide) rfl ?_, .operand ⟨by decide, by decide⟩⟩
      simp only [List.forall_mem_singleton]
      exact hname (by decide) (by decide) (by decide) (by decide +kernel) fun _ => by decide +kernel
    · refine .isIn (.list (by decide) (by simp) (by simp)) (.listed (by simp) ?_)
      simp only [List.forall_mem_cons, List.not_mem_nil, false_implies, implies_true, and_true]
      refine ⟨hname (by decide) (by decide) (by decide) (by decide +kernel) (by simp),
        .operand (show (-1 : Int64) ≠ Int64.minValue by decide), .listed (by simp) ?_⟩
      simpa only [List.forall_mem_singleton] using hminus
  exact ⟨hwf, exists_parse_render_eq hwf⟩

end WhereClause
