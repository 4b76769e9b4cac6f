import WhereClause.Proofs.Phrase.Agreement
import WhereClause.Proofs.Phrase.Places
import WhereClause.Proofs.Value.Refusal

/-!
# The order of the parts of a group

The parts of a group come in an order that is checked as its items arrive: a phrase or a prefix
operator where an operand is lacking, any other operator or a separator where none is, and no prefix
operator as the operand of an operator that binds tighter. Applying a tier keeps the order. So when
an operator is applied its operands are phrases, and a group is refused only for a `BETWEEN` without
its separator or for an `IN` without a list.
-/

namespace WhereClause

/-- The operator is of tier `k` or of a later one. -/
def OperatorTable.From (t : OperatorTable) (k : Nat) (op : Operator) : Prop :=
  ∃ j, k ≤ j ∧ op ∈ t.tier j

variable {t : OperatorTable}

namespace Part

/-! ## What may come next -/

/-- What is lacking at a place in a group. -/
inductive Gap
  /-- The place is the beginning of the group. -/
  | start
  /-- An operand of the operator is lacking. -/
  | operand (op : Operator)
  /-- Nothing is lacking: an operand has ended. -/
  | filled

namespace Gap

/-- What is lacking after the part. -/
def after : Part → Gap
  | .phrase _ => .filled
  | .operator op _ => .operand op
  | .separator _ => .operand .between

/-- Whether the part may come at such a place. -/
def Admits (t : OperatorTable) : Gap → Part → Prop
  | .filled, .phrase _ => False
  | .filled, .operator op _ => op.isPrefix = false
  | .filled, .separator _ => True
  | _, .phrase _ => True
  | .start, .operator op _ => op.isPrefix = true
  | .operand lacking, .operator op _ => op.isPrefix = true ∧ t.bindsTighter lacking op = false
  | _, .separator _ => False

variable {a : Gap} {op : Operator} {span : Span}

theorem admits_phrase_iff {x : Phrase} : a.Admits t (.phrase x) ↔ a ≠ .filled := by
  cases a <;> simp [Admits]

theorem admits_separator_iff : a.Admits t (.separator span) ↔ a = .filled := by
  cases a <;> simp [Admits]

theorem Admits.isPrefix_iff (h : a.Admits t (.operator op span)) :
    op.isPrefix = true ↔ a ≠ .filled := by
  cases a <;> simp_all [Admits]

end Gap

/-! ## Parts in order -/

/-- The parts may come one after the other, from a place where `a` is lacking to one where `b` is.
`P` holds of the operators. -/
inductive Arranged (t : OperatorTable) (P : Operator → Prop) : Gap → List Part → Gap → Prop
  | nil {a : Gap} : Arranged t P a [] a
  | cons {a b : Gap} {p : Part} {ps : List Part} : a.Admits t p → p.Among P →
    Arranged t P (.after p) ps b → Arranged t P a (p :: ps) b

variable {P Q : Operator → Prop} {a b c : Gap} {p : Part} {ps qs done : List Part}
  {op : Operator} {span : Span} {k : Nat}

namespace Arranged

theorem imp (h : Arranged t P a ps b) (hPQ : ∀ op, P op → Q op) : Arranged t Q a ps b := by
  induction h with
  | nil => exact .nil
  | @cons a b p ps ha hp _ ih =>
    refine .cons ha ?_ ih
    cases p with
    | operator op span => exact hPQ op hp
    | phrase | separator => trivial

theorem append (hp : Arranged t P a ps b) (hq : Arranged t P b qs c) :
    Arranged t P a (ps ++ qs) c := by
  induction hp with
  | nil => exact hq
  | cons ha hp _ ih => exact .cons ha hp (ih hq)

theorem of_append (h : Arranged t P a (ps ++ qs) c) :
    ∃ b, Arranged t P a ps b ∧ Arranged t P b qs c := by
  induction ps generalizing a with
  | nil => exact ⟨a, .nil, h⟩
  | cons p ps ih =>
    cases h with
    | cons ha hp hr =>
      obtain ⟨b, h₁, h₂⟩ := ih hr
      exact ⟨b, .cons ha hp h₁, h₂⟩

theorem of_cons (h : Arranged t P a (p :: ps) b) :
    a.Admits t p ∧ p.Among P ∧ Arranged t P (.after p) ps b := by
  cases h with
  | cons ha hp hr => exact ⟨ha, hp, hr⟩

/-- One more part, latest first. -/
theorem push (h : Arranged t P a done.reverse b) (hb : b.Admits t p) (hp : p.Among P) :
    Arranged t P a (p :: done).reverse (.after p) := by
  rw [List.reverse_cons]
  exact h.append (.cons hb hp .nil)

theorem of_push (h : Arranged t P a (p :: done).reverse c) :
    c = .after p ∧ ∃ b, Arranged t P a done.reverse b ∧ b.Admits t p := by
  rw [List.reverse_cons] at h
  obtain ⟨b, h₁, h₂⟩ := h.of_append
  obtain ⟨hb, -, hn⟩ := h₂.of_cons
  cases hn
  exact ⟨rfl, b, h₁, hb⟩

/-- What is lacking after a group so far depends on its last part. -/
theorem exists_phrase_of_filled (h : Arranged t P .start done.reverse .filled) :
    ∃ x rest b, done = .phrase x :: rest ∧ b ≠ .filled ∧ Arranged t P .start rest.reverse b := by
  cases done with
  | nil => cases h
  | cons p rest =>
    obtain ⟨hp, b, hr, hb⟩ := h.of_push
    cases p with
    | phrase x => exact ⟨x, rest, b, rfl, Gap.admits_phrase_iff.1 hb, hr⟩
    | operator | separator => cases hp

/-- Where the operator of tier `k` lacks an operand, and prefix operators are of later tiers, a
phrase comes. -/
theorem exists_phrase (h : Arranged t P (.operand op) ps .filled) (hop : op ∈ t.tier k)
    (hP : ∀ inner, P inner → inner.isPrefix = true → t.From (k + 1) inner) :
    ∃ x rest, ps = .phrase x :: rest ∧ Arranged t P .filled rest .filled := by
  cases h with
  | @cons _ _ p rest ha hp hr =>
    cases p with
    | phrase x => exact ⟨x, rest, rfl, hr⟩
    | separator => cases ha
    | operator inner span =>
      obtain ⟨j, hj, hm⟩ := hP inner hp ha.1
      have htighter : t.bindsTighter op inner = true :=
        (OperatorTable.bindsTighter_iff hop hm).2 (by omega)
      cases htighter.symm.trans ha.2

end Arranged

/-! ## One tier -/

/-- The operators that are left when the prefix operators of tier `k` have been applied. -/
def Unapplied (t : OperatorTable) (k : Nat) (op : Operator) : Prop :=
  t.From k op ∧ ¬ (op.isPrefix = true ∧ op ∈ t.tier k)

theorem Unapplied.from_succ (h : Unapplied t k op) (hp : op.isPrefix = true ∨ op ∉ t.tier k) :
    t.From (k + 1) op := by
  obtain ⟨⟨j, hj, hm⟩, hnot⟩ := h
  have hne : j ≠ k := by
    rintro rfl
    exact hp.elim (fun hp => hnot ⟨hp, hm⟩) fun hn => hn hm
  exact ⟨j, by omega, hm⟩

/-- A prefix operator finds its operand. -/
theorem exists_applyPrefix (h : Arranged t (t.From k) a ps .filled) :
    ∃ qs, applyPrefix (t.tier k) ps = .ok qs ∧ Arranged t (Unapplied t k) a qs .filled := by
  induction ps generalizing a with
  | nil =>
    cases h
    exact ⟨[], rfl, .nil⟩
  | cons p ps ih =>
    obtain ⟨ha, hp, hr⟩ := h.of_cons
    obtain ⟨qs, hqs, hq⟩ := ih hr
    cases p with
    | phrase x => exact ⟨.phrase x :: qs, by simp [applyPrefix, hqs], .cons ha trivial hq⟩
    | separator span =>
      exact ⟨.separator span :: qs, by simp [applyPrefix, hqs], .cons ha trivial hq⟩
    | operator op span =>
      by_cases happly : op.isPrefix = true ∧ op ∈ t.tier k
      · obtain ⟨x, rest, rfl, hrest⟩ :=
          hq.exists_phrase happly.2 fun _ hi hpre => hi.from_succ (.inl hpre)
        refine ⟨.phrase (.unary op span x) :: rest, by simp [applyPrefix, hqs, happly], ?_⟩
        exact .cons (Gap.admits_phrase_iff.2 (ha.isPrefix_iff.1 happly.1)) trivial hrest
      · refine ⟨.operator op span :: qs, ?_, .cons ha ⟨hp, happly⟩ hq⟩
        simp only [applyPrefix, hqs, ok_bind]
        rw [if_neg (by simpa using happly)]

theorem isLate_of_applyBinary {x y : Phrase} {err : SyntaxError}
    (h : applyBinary op span x y = .error err) : err.isLate = true := by
  unfold applyBinary at h
  split at h
  · split at h <;> cases h
    rfl
  · cases h
  · cases h

/-- An operator between its operands finds them, and so does a `BETWEEN` that has its separator. -/
theorem settles_applyInfix_late (hd : Arranged t (t.From (k + 1)) .start done.reverse a)
    (hp : Arranged t (Unapplied t k) a ps .filled) :
    Settles (applyInfix (t.tier k) done ps)
      (fun qs => Arranged t (t.From (k + 1)) .start qs .filled) (·.isLate = true) := by
  have hlater : ∀ inner, Unapplied t k inner → inner.isPrefix = true → t.From (k + 1) inner :=
    fun inner hi hpre => hi.from_succ (.inl hpre)
  fun_induction applyInfix (t.tier k) done ps generalizing a with
  | case1 done =>
    cases hp
    exact hd
  | case2 span x done y stop high rest hop ih =>
    obtain ⟨rfl, b, hb, hx⟩ := hd.of_push
    obtain ⟨-, -, h₁⟩ := hp.of_cons
    obtain ⟨-, -, h₂⟩ := h₁.of_cons
    obtain ⟨-, -, h₃⟩ := h₂.of_cons
    obtain ⟨-, -, h₄⟩ := h₃.of_cons
    exact ih (hb.push (Gap.admits_phrase_iff.2 (Gap.admits_phrase_iff.1 hx)) trivial) h₄
  | case3 span x done y stop rest hne hop =>
    obtain ⟨-, -, h₁⟩ := hp.of_cons
    obtain ⟨-, -, h₂⟩ := h₁.of_cons
    obtain ⟨-, -, h₃⟩ := h₂.of_cons
    have hm : .between ∈ t.tier k := by simpa [Operator.isPrefix, Operator.arity] using hop
    obtain ⟨high, rest, rfl, -⟩ := h₃.exists_phrase hm hlater
    exact absurd rfl (hne _ _)
  | case4 span x done y rest => rfl
  | case5 op span hop x done y rest hb ih =>
    obtain ⟨rfl, b, hb, hx⟩ := hd.of_push
    obtain ⟨-, -, h₁⟩ := hp.of_cons
    obtain ⟨-, -, h₂⟩ := h₁.of_cons
    have hbinary : Settles (applyBinary op span x y) (fun _ => True) (·.isLate = true) := by
      cases hz : applyBinary op span x y with
      | ok z => trivial
      | error err => exact isLate_of_applyBinary hz
    exact hbinary.bind fun z _ =>
      ih z (hb.push (Gap.admits_phrase_iff.2 (Gap.admits_phrase_iff.1 hx)) trivial) h₂
  | case6 done op span rest hop hne =>
    -- a phrase stands before the operator, and one after it
    obtain ⟨ha, -, h₁⟩ := hp.of_cons
    obtain ⟨hpre, hm⟩ : op.isPrefix = false ∧ op ∈ t.tier k := by simpa using hop
    have hfilled : a = .filled := by
      by_contra hne
      rw [ha.isPrefix_iff.2 hne] at hpre
      cases hpre
    subst hfilled
    obtain ⟨x, done, -, rfl, -⟩ := hd.exists_phrase_of_filled
    obtain ⟨y, rest, rfl, -⟩ := h₁.exists_phrase hm hlater
    exact absurd rfl (hne _ _ _ _ rfl)
  | case7 done op span rest hop ih =>
    obtain ⟨ha, hop', h₁⟩ := hp.of_cons
    refine ih (hd.push ha (hop'.from_succ ?_)) h₁
    cases hpre : op.isPrefix with
    | true => exact .inl rfl
    | false => exact .inr (by simpa [hpre] using hop)
  | case8 done part rest hpart ih =>
    obtain ⟨ha, -, h₁⟩ := hp.of_cons
    refine ih (hd.push ha ?_) h₁
    cases part with
    | operator op span => exact absurd rfl (hpart _ _)
    | phrase | separator => trivial

/-! ## All tiers -/

theorem settles_applyTiers_late {tiers : List (List Operator)} (ht : tiers = t.tiers.drop k)
    (h : Arranged t (t.From k) .start ps .filled) :
    Settles (applyTiers tiers ps) (fun _ => True) (·.isLate = true) := by
  induction tiers generalizing k ps with
  | nil => trivial
  | cons tier rest ih =>
    have hk : k < t.tiers.length := by
      by_contra hk
      rw [List.drop_eq_nil_of_le (by omega)] at ht
      cases ht
    rw [List.drop_eq_getElem_cons hk, ← OperatorTable.tier_eq_getElem hk] at ht
    obtain ⟨rfl, hrest⟩ := List.cons.inj ht
    obtain ⟨qs, hqs, hq⟩ := exists_applyPrefix h
    rw [applyTiers, hqs]
    have hinfix : Settles (applyInfix (t.tier k) [] qs) _ _ := settles_applyInfix_late .nil hq
    exact hinfix.bind fun rs hr => ih hrest hr

/-- A group in order is refused only when an operator does not fit its operands. -/
theorem isLate_of_resolve {w : List Item} {lacks : Bool} {err : SyntaxError}
    (hr : Row (· ∈ t.tiers.flatten) true ps w lacks) (hw : w ≠ [])
    (hle : (Item.direct w).countP Item.isSeparator ≤ (Item.direct w).countP Item.isBetween)
    (ha : Arranged t (· ∈ t.tiers.flatten) .start ps .filled)
    (h : resolve t ps span = .error err) : err.isLate = true := by
  have hne : ps.isEmpty = false := by
    cases ps with
    | nil => cases ha
    | cons => rfl
  have hfrom : Arranged t (t.From 0) .start ps .filled := ha.imp fun op hop => by
    obtain ⟨j, hj⟩ := OperatorTable.mem_tiers_iff_exists_tier.1 hop
    exact ⟨j, j.zero_le, hj⟩
  unfold resolve at h
  rw [if_neg (by simp [hne])] at h
  rcases bind_eq_error_iff.1 h with h | ⟨qs, hqs, h⟩
  · have hlate := settles_applyTiers_late (t := t) (k := 0) rfl hfrom
    rw [List.drop_zero, h] at hlate
    exact hlate
  · have hrow : Settles (applyTiers t.tiers ps) _ _ := settles_applyTiers hr
    rw [hqs] at hrow
    obtain ⟨x, rfl, -⟩ := hrow.exists_phrase_of_tiers hw hle
    cases h

/-! ## The operator that lacks an operand -/

/-- What is lacking after the parts, which are given latest first. -/
def gap : List Part → Gap
  | [] => .start
  | p :: _ => .after p

theorem gap_eq_start_iff : gap ps = .start ↔ ps = [] := by
  rcases ps with - | ⟨⟨_⟩ | ⟨_, _⟩ | ⟨_⟩, _⟩ <;> simp [gap, Gap.after]

theorem lacksOperand_iff : lacksOperand ps = true ↔ gap ps ≠ .filled := by
  rcases ps with - | ⟨⟨_⟩ | ⟨_, _⟩ | ⟨_⟩, _⟩ <;> simp [gap, Gap.after, lacksOperand]

/-- Whether the part is a `BETWEEN`. -/
def isBetween : Part → Bool
  | .operator op _ => op = .between
  | _ => false

/-- Whether the part is a separator. -/
def isSeparator : Part → Bool
  | .separator _ => true
  | _ => false

/-- The parts of a group have as many `BETWEEN`s without a separator as its items. -/
theorem Row.countP_add {lacks lacks' : Bool} {w : List Item} (h : Row P lacks ps w lacks') :
    (Item.direct w).countP Item.isSeparator + ps.countP isBetween =
      (Item.direct w).countP Item.isBetween + ps.countP isSeparator := by
  induction h with
  | nil => rfl
  | @phrase b x ps u w hx _ ih =>
    have heven := hx.even
    rw [hx.balanced.direct_append, List.countP_append, List.countP_append,
      List.countP_cons_of_neg (by simp [isBetween]),
      List.countP_cons_of_neg (by simp [isSeparator])]
    omega
  | @operator b op span ps w _ _ ih =>
    rw [Item.direct_leaf rfl]
    by_cases hop : op = .between
    · simp only [List.countP_cons, Item.isSeparator, Item.isBetween, isBetween, isSeparator, hop,
        decide_true, Bool.false_eq_true, if_false, if_true]
      omega
    · simp only [List.countP_cons, Item.isSeparator, Item.isBetween, isBetween, isSeparator, hop,
        decide_false, Bool.false_eq_true, if_false]
      omega
  | separator _ ih =>
    rw [Item.direct_leaf rfl]
    simp only [List.countP_cons, Item.isSeparator, Item.isBetween, isBetween, isSeparator,
      Bool.false_eq_true, if_false, if_true]
    omega

/-- A separator has its `BETWEEN` if there are more of these than of separators. -/
theorem exists_betweenOf? {inner : Nat}
    (h : inner + ps.countP isSeparator < ps.countP isBetween) :
    ∃ span, betweenOf? inner ps = some (.between, span) := by
  fun_induction betweenOf? inner ps with
  | case1 => simp at h
  | case2 inner span rest ih =>
    rw [List.countP_cons_of_pos rfl, List.countP_cons_of_neg (by simp [isBetween])] at h
    exact ih (by omega)
  | case3 span rest => exact ⟨span, rfl⟩
  | case4 span rest inner ih =>
    rw [List.countP_cons_of_neg (by simp [isSeparator]), List.countP_cons_of_pos rfl] at h
    exact ih (by omega)
  | case5 inner part rest hsep hbetween ih =>
    refine ih ?_
    cases part with
    | separator span => exact absurd rfl (hsep span)
    | phrase x => simpa [isSeparator, isBetween] using h
    | operator op span =>
      have hne : op ≠ .between := fun hop => hbetween span (by rw [hop])
      simpa [isSeparator, isBetween, hne] using h

end Part

/-! ## Reading items -/

namespace Nesting

open WhereClause.Part

variable {n n' : Nesting} {items ws : List Item} {item : Item} {op : Operator} {stop : Span}

/-- The group that is being read has no more separators than `BETWEEN`s. -/
theorem Covers.countP_le (hc : Covers t items n) (hi : Item.Regular t items) :
    n.inner.countP isSeparator ≤ n.inner.countP isBetween := by
  have hparts {w : List Item} {inner : List Part} {lacks : Bool}
      (hr : Row (· ∈ t.tiers.flatten) true inner.reverse w lacks)
      (hle : (Item.direct w).countP Item.isSeparator ≤ (Item.direct w).countP Item.isBetween) :
      inner.countP isSeparator ≤ inner.countP isBetween := by
    have hadd := hr.countP_add
    rw [List.countP_reverse, List.countP_reverse] at hadd
    omega
  cases hc with
  | @inside inner before outer start u w _ _ hr => exact hparts hr (hi.countP_le hr.balanced)
  | @outermost inner w hr =>
    obtain rfl := hi.eq_nil_of_balanced hr.balanced
    exact hparts hr (Nat.le_refl _)

/-- Where an operand is lacking, it is known of which operator. -/
theorem Covers.exists_lacking (hc : Covers t items n) (hi : Item.Regular t items)
    (hg : gap n.inner = .operand op) : ∃ span, lacking? n.inner = some (op, span) := by
  have hle := hc.countP_le hi
  match hn : n.inner with
  | [] | .phrase x :: rest =>
    rw [hn] at hg
    cases hg
  | .operator _ span :: rest =>
    rw [hn] at hg
    cases hg
    exact ⟨span, rfl⟩
  | .separator _ :: rest =>
    rw [hn] at hg hle
    cases hg
    rw [List.countP_cons_of_pos rfl, List.countP_cons_of_neg (by simp [isBetween])] at hle
    exact exists_betweenOf? (by omega)

theorem Covers.inner_ne_nil (hc : Covers t items n)
    (hi : Item.Regular t (items ++ [.separator stop])) : n.inner ≠ [] := by
  intro hn
  cases hc with
  | @outermost inner w hr =>
    obtain rfl : inner = [] := hn
    obtain ⟨-, rfl⟩ := hr.of_nil
    exact hi.not_separator_of_balanced .nil
  | @inside inner before outer start u w _ _ hr =>
    obtain rfl : inner = [] := hn
    obtain ⟨-, rfl⟩ := hr.of_nil
    exact hi.not_separator .nil rfl

/-! ### Open groups -/

/-- The parts of each open group are in order, and a group that is open inside of another one stands
where an operand is lacking. -/
structure Arranged (t : OperatorTable) (n : Nesting) : Prop where
  inner : Part.Arranged t (· ∈ t.tiers.flatten) .start n.inner.reverse (gap n.inner)
  outer : ∀ g ∈ n.outer, gap g.2 ≠ .filled ∧
    Part.Arranged t (· ∈ t.tiers.flatten) .start g.2.reverse (gap g.2)

theorem arranged_empty : Arranged t {} :=
  ⟨.nil, nofun⟩

theorem Arranged.push {p : Part} (h : Arranged t n) (hg : (gap n.inner).Admits t p)
    (hp : p.Among (· ∈ t.tiers.flatten)) : Arranged t (n.push p) :=
  ⟨h.inner.push hg hp, h.outer⟩

theorem of_admitOperand {span : Span} {u : Unit} (h : n.admitOperand span = .ok u) :
    gap n.inner ≠ .filled := by
  unfold admitOperand at h
  split at h
  · exact lacksOperand_iff.1 ‹_›
  · cases h

/-- An operand ends where nothing is lacking. -/
theorem Covers.of_admitEnd {u : Unit} (hc : Covers t items n) (hi : Item.Regular t items)
    (h : n.admitEnd = .ok u) : gap n.inner = .start ∨ gap n.inner = .filled := by
  cases hg : gap n.inner with
  | start => exact .inl rfl
  | filled => exact .inr rfl
  | operand op =>
    obtain ⟨span, hl⟩ := hc.exists_lacking hi hg
    rw [admitEnd, hl] at h
    cases h

/-- A prefix operator is admitted by the operator that lacks an operand. -/
theorem Covers.admits_prefix {span : Span} {u : Unit} (hc : Covers t items n)
    (hi : Item.Regular t items) (hp : op.isPrefix = true) (hg : gap n.inner ≠ .filled)
    (h : n.admitPrefix t op = .ok u) : (gap n.inner).Admits t (.operator op span) := by
  cases hgap : gap n.inner with
  | start => exact hp
  | filled => exact absurd hgap hg
  | operand lacking =>
    obtain ⟨place, hl⟩ := hc.exists_lacking hi hgap
    rw [admitPrefix, hl] at h
    refine ⟨hp, ?_⟩
    by_contra htighter
    simp only [Bool.not_eq_false] at htighter
    simp [htighter] at h

/-! ### One item -/

theorem arranged_step (hc : Covers t items n) (hi : Item.Continues t items item)
    (h : Arranged t n) (hs : step t n item = .ok n') : Arranged t n' := by
  cases item with
  | opening span =>
    obtain ⟨u, ha, hs⟩ := bind_eq_ok_iff.1 hs
    cases hs
    exact ⟨.nil, List.forall_mem_cons.2 ⟨⟨of_admitOperand ha, h.inner⟩, h.outer⟩⟩
  | closing span =>
    rw [step] at hs
    split at hs
    · cases hs
    · rename_i start before outer hn
      obtain ⟨u, -, hs⟩ := bind_eq_ok_iff.1 hs
      obtain ⟨x, -, hs⟩ := bind_eq_ok_iff.1 hs
      cases hs
      have houter := h.outer
      rw [hn] at houter
      obtain ⟨⟨hne, hbefore⟩, houter⟩ := List.forall_mem_cons.1 houter
      exact ⟨hbefore.push (Gap.admits_phrase_iff.2 hne) trivial, houter⟩
  | operand x span =>
    obtain ⟨u, ha, hs⟩ := bind_eq_ok_iff.1 hs
    cases hs
    exact h.push (Gap.admits_phrase_iff.2 (of_admitOperand ha)) trivial
  | list elements span =>
    obtain ⟨u, ha, hs⟩ := bind_eq_ok_iff.1 hs
    cases hs
    exact h.push (Gap.admits_phrase_iff.2 (of_admitOperand ha)) trivial
  | separator span =>
    obtain ⟨u, ha, hs⟩ := bind_eq_ok_iff.1 hs
    cases hs
    refine h.push (Gap.admits_separator_iff.2 ?_) trivial
    exact (hc.of_admitEnd hi.regular ha).resolve_left
      fun hg => hc.inner_ne_nil (hi.separator span rfl) (gap_eq_start_iff.1 hg)
  | operator op span =>
    rw [step] at hs
    split at hs
    · rename_i hp
      obtain ⟨u, ha, hs⟩ := bind_eq_ok_iff.1 hs
      obtain ⟨u, hap, hs⟩ := bind_eq_ok_iff.1 hs
      cases hs
      exact h.push (hc.admits_prefix hi.regular hp (of_admitOperand ha) hap) hi.known
    · rename_i hp
      split at hs
      · cases hs
      · rename_i hl
        cases hs
        have hg : gap n.inner = .filled := by
          by_contra hg
          exact hl (lacksOperand_iff.2 hg)
        refine h.push ?_ hi.known
        rw [hg]
        exact Bool.eq_false_iff.2 hp

/-- A group that may end is refused only when an operator does not fit its operands. -/
theorem isLate_of_group {start : Span} {before : List Part} {outer : List (Span × List Part)}
    {u : Unit} {err : SyntaxError} (hc : Covers t items n) (hi : Item.Regular t items)
    (h : Arranged t n) (hn : n.outer = (start, before) :: outer) (hend : n.admitEnd = .ok u)
    (hr : resolve t n.inner.reverse (start.merge stop) = .error err) : err.isLate = true := by
  have hgap := hc.of_admitEnd hi hend
  have ha := h.inner
  cases hc with
  | outermost => cases hn
  | @inside inner before outer start' v w _ _ hrow =>
    change resolve t inner.reverse _ = _ at hr
    rcases hgap with hgap | hgap
    · obtain rfl : inner = [] := gap_eq_start_iff.1 hgap
      cases hr
    · rw [hgap] at ha
      refine isLate_of_resolve hrow ?_ (hi.countP_le hrow.balanced) ha hr
      rintro rfl
      obtain rfl : inner = [] := by simpa using hrow.eq_nil
      cases hgap

/-! ### All items -/

theorem arranged_foldlM (hc : Covers t items n) (hi : Item.Regular t (items ++ ws))
    (h : Arranged t n) (hs : ws.foldlM (step t) n = .ok n') :
    Covers t (items ++ ws) n' ∧ Arranged t n' := by
  induction ws generalizing items n with
  | nil =>
    cases hs
    rw [List.append_nil]
    exact ⟨hc, h⟩
  | cons item rest ih =>
    obtain ⟨m, hm, hs⟩ := foldlM_cons_eq_ok_iff.1 hs
    rw [List.append_cons] at hi ⊢
    have hnext := (hi.of_prefix (List.prefix_append (items ++ [item]) rest)).continues
    have hstep := settles_step hc hnext
    rw [hm] at hstep
    exact ih hstep hi (arranged_step hc hnext h hm) hs

end Nesting

end WhereClause
