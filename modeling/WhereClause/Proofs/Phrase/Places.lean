import WhereClause.Proofs.Item.Extent
import WhereClause.Proofs.Phrase.Soundness

/-!
# Places of errors in reading

When items are read into a phrase, every error is about items that have been read. The parts of a
group, in turn, stand for its items, and whether an operand is lacking tells which parts may follow;
applying a tier keeps this, and takes its operators away. So at the end of a group nothing is left
but phrases and separators. No group has more separators than `BETWEEN`s, and each phrase has as
many of both; hence there is one phrase, and the error of a group that is more than one is never
reported.
-/

namespace WhereClause

variable {t : OperatorTable}

/-! ## Parts in a row -/

namespace Part

/-- The parts stand for the items in turn. An operand is lacking before them, or not, and then after
them; this decides which parts may come next, except for separators, which are counted instead. `P`
holds of the operators. -/
inductive Row (P : Operator → Prop) : Bool → List Part → List Item → Bool → Prop
  | nil {a : Bool} : Row P a [] [] a
  | phrase {b : Bool} {x : Phrase} {ps : List Part} {u w : List Item} : Item.Extent u x.span →
    Row P false ps w b → Row P true (.phrase x :: ps) (u ++ w) b
  | operator {b : Bool} {op : Operator} {span : Span} {ps : List Part} {w : List Item} : P op →
    Row P true ps w b → Row P op.isPrefix (.operator op span :: ps) (.operator op span :: w) b
  | separator {a b : Bool} {span : Span} {ps : List Part} {w : List Item} :
    Row P true ps w b → Row P a (.separator span :: ps) (.separator span :: w) b

variable {P Q : Operator → Prop} {a b c : Bool} {ps qs done : List Part} {u v w : List Item}
  {op : Operator} {span : Span} {tier : List Operator} {x y : Phrase}

namespace Row

theorem imp (h : Row P a ps w b) (hPQ : ∀ op, P op → Q op) : Row Q a ps w b := by
  induction h with
  | nil => exact .nil
  | phrase hx _ ih => exact .phrase hx ih
  | operator hop _ ih => exact .operator (hPQ _ hop) ih
  | separator _ ih => exact .separator ih

theorem append (hp : Row P a ps w b) (hq : Row P b qs v c) : Row P a (ps ++ qs) (w ++ v) c := by
  induction hp with
  | nil => exact hq
  | phrase hx _ ih =>
    rw [List.append_assoc]
    exact .phrase hx (ih hq)
  | operator hop _ ih => exact .operator hop (ih hq)
  | separator _ ih => exact .separator (ih hq)

theorem of_append (h : Row P a (ps ++ qs) w c) :
    ∃ u v b, w = u ++ v ∧ Row P a ps u b ∧ Row P b qs v c := by
  induction ps generalizing a w with
  | nil => exact ⟨[], w, a, rfl, .nil, h⟩
  | cons p ps ih =>
    cases h with
    | phrase hx hp =>
      obtain ⟨u, v, b, rfl, hu, hv⟩ := ih hp
      exact ⟨_, v, b, (List.append_assoc ..).symm, .phrase hx hu, hv⟩
    | operator hop hp =>
      obtain ⟨u, v, b, rfl, hu, hv⟩ := ih hp
      exact ⟨_, v, b, rfl, .operator hop hu, hv⟩
    | separator hp =>
      obtain ⟨u, v, b, rfl, hu, hv⟩ := ih hp
      exact ⟨_, v, b, rfl, .separator hu, hv⟩

theorem of_nil (h : Row P a [] w b) : a = b ∧ w = [] := by
  cases h
  exact ⟨rfl, rfl⟩

theorem of_phrase_cons (h : Row P a (.phrase x :: ps) w b) :
    a = true ∧ ∃ u v, w = u ++ v ∧ Item.Extent u x.span ∧ Row P false ps v b := by
  cases h with
  | phrase hx hp => exact ⟨rfl, _, _, rfl, hx, hp⟩

theorem of_operator_cons (h : Row P a (.operator op span :: ps) w b) :
    a = op.isPrefix ∧ P op ∧ ∃ v, w = .operator op span :: v ∧ Row P true ps v b := by
  cases h with
  | operator hop hp => exact ⟨rfl, hop, _, rfl, hp⟩

theorem of_separator_cons (h : Row P a (.separator span :: ps) w b) :
    ∃ v, w = .separator span :: v ∧ Row P true ps v b := by
  cases h with
  | separator hp => exact ⟨_, rfl, hp⟩

theorem single (hx : Item.Extent u x.span) : Row P true [.phrase x] u false := by
  have h : Row P true [.phrase x] (u ++ []) false := .phrase hx .nil
  rwa [List.append_nil] at h

theorem concat_phrase (h : Row P a ps w true) (hx : Item.Extent u x.span) :
    Row P a (ps ++ [.phrase x]) (w ++ u) false :=
  h.append (.single hx)

theorem of_concat_phrase (h : Row P a (ps ++ [.phrase x]) w b) :
    b = false ∧ ∃ v u, w = v ++ u ∧ Row P a ps v true ∧ Item.Extent u x.span := by
  obtain ⟨v, u, c, rfl, hv, hu⟩ := h.of_append
  obtain ⟨rfl, u, u', rfl, hx, hn⟩ := hu.of_phrase_cons
  obtain ⟨rfl, rfl⟩ := hn.of_nil
  exact ⟨rfl, v, u, by rw [List.append_nil], hv, hx⟩

/-- Whether an operand is lacking depends on the last part. -/
theorem lacksOperand (h : Row P true ps.reverse w b) : Part.lacksOperand ps = b := by
  match ps with
  | [] => exact h.of_nil.1
  | .phrase x :: rest =>
    rw [List.reverse_cons] at h
    exact h.of_concat_phrase.1.symm
  | .operator op span :: rest =>
    rw [List.reverse_cons] at h
    obtain ⟨v, u, c, rfl, -, hu⟩ := h.of_append
    obtain ⟨-, -, u, rfl, hn⟩ := hu.of_operator_cons
    exact hn.of_nil.1
  | .separator span :: rest =>
    rw [List.reverse_cons] at h
    obtain ⟨v, u, c, rfl, -, hu⟩ := h.of_append
    obtain ⟨u, rfl, hn⟩ := hu.of_separator_cons
    exact hn.of_nil.1

theorem eq_nil (h : Row P a ps [] b) : ps = [] := by
  match ps with
  | [] => rfl
  | .phrase x :: rest =>
    obtain ⟨-, u, v, hw, hx, -⟩ := h.of_phrase_cons
    exact absurd (List.append_eq_nil_iff.1 hw.symm).1 hx.ne_nil
  | .operator op span :: rest =>
    obtain ⟨-, -, v, hw, -⟩ := h.of_operator_cons
    cases hw
  | .separator span :: rest =>
    obtain ⟨v, hw, -⟩ := h.of_separator_cons
    cases hw

theorem mem_of_operator (h : Row P a ps w b) (hm : .operator op span ∈ ps) :
    .operator op span ∈ w := by
  induction h with
  | nil => cases hm
  | phrase _ _ ih => exact List.mem_append_right _ (ih (by simpa using hm))
  | operator _ _ ih =>
    rcases List.mem_cons.1 hm with heq | hm
    · cases heq
      exact List.mem_cons_self
    · exact List.mem_cons_of_mem _ (ih hm)
  | separator _ ih => exact List.mem_cons_of_mem _ (ih (by simpa using hm))

theorem balanced (h : Row P a ps w b) : Item.Balanced w := by
  induction h with
  | nil => exact .nil
  | phrase hx _ ih => exact hx.balanced.append ih
  | operator _ _ ih | separator _ ih => exact .leaf rfl ih

end Row

/-! ## One tier -/

theorem settles_applyPrefix (h : Row P a ps w b) :
    Settles (applyPrefix tier ps)
      (fun qs => Row (fun op => P op ∧ ¬ (op.isPrefix = true ∧ op ∈ tier)) a qs w b)
      (·.ArisesIn w) := by
  induction h with
  | nil => exact .nil
  | @phrase b x ps u w hx _ ih =>
    have hrest := ih.imp_error fun _ h => h.mono (List.suffix_append u w).isInfix
    exact hrest.bind fun rest hr => .phrase hx hr
  | @separator _ b span ps w _ ih =>
    have hrest := ih.imp_error fun _ h => h.mono (List.suffix_cons (.separator span) w).isInfix
    exact hrest.bind fun rest hr => .separator hr
  | @operator b op span ps w hop _ ih =>
    have hrest := ih.imp_error fun _ h => h.mono (List.suffix_cons (.operator op span) w).isInfix
    refine hrest.bind fun rest hr => ?_
    split
    · rename_i happly
      simp only [Bool.and_eq_true, List.contains_iff_mem] at happly
      split
      · rename_i x rest
        obtain ⟨-, u, v, rfl, hx, hr⟩ := hr.of_phrase_cons
        have hx' : Item.Extent (.operator op span :: u) (Phrase.unary op span x).span :=
          hx.unary happly.1
        rw [happly.1]
        exact Row.phrase hx' hr
      · exact .missingOperand List.mem_cons_self
    · rename_i hskip
      exact Row.operator ⟨hop, by simpa using hskip⟩ hr

theorem settles_applyBinary (hb : op ≠ .between) (hx : Item.Extent u x.span)
    (hy : Item.Extent w y.span) :
    Settles (applyBinary op span x y) (fun z => Item.Extent (u ++ .operator op span :: w) z.span)
      (·.ArisesIn (u ++ .operator op span :: w)) := by
  unfold applyBinary
  split
  · split
    · exact hx.binary hb hy (.inr rfl)
    · exact .invalidInTarget (List.append_nil _).symm hy
  · exact hx.binary hb hy (.inl rfl)
  · exact hx.binary hb hy (.inr rfl)

/-- The parts before the one that is being read have lost the operators of the tier. -/
theorem settles_applyInfix (hd : Row (fun op => P op ∧ op ∉ tier) true done.reverse v a)
    (hp : Row (fun op => P op ∧ ¬ (op.isPrefix = true ∧ op ∈ tier)) a ps w b) :
    Settles (applyInfix tier done ps)
      (fun qs => Row (fun op => P op ∧ op ∉ tier) true qs (v ++ w) b) (·.ArisesIn (v ++ w)) := by
  fun_induction applyInfix tier done ps generalizing a v w with
  | case1 done =>
    cases hp
    rw [List.append_nil]
    exact hd
  | case2 span x done y stop high rest hop ih =>
    rw [List.reverse_cons] at hd
    obtain ⟨rfl, v, u, rfl, hv, hx⟩ := hd.of_concat_phrase
    obtain ⟨-, -, _, rfl, h₁⟩ := hp.of_operator_cons
    obtain ⟨-, m, _, rfl, hy, h₂⟩ := h₁.of_phrase_cons
    obtain ⟨_, rfl, h₃⟩ := h₂.of_separator_cons
    obtain ⟨-, n, w, rfl, hz, h₄⟩ := h₃.of_phrase_cons
    have he : Item.Extent (u ++ .operator .between span :: m ++ .separator stop :: n)
        (Phrase.ternary .between span x y high).span := hx.between hy hz
    have hs := hv.concat_phrase he
    rw [← List.reverse_cons] at hs
    simpa using ih hs h₄
  | case3 span x done y stop rest _ =>
    obtain ⟨-, -, _, rfl, -⟩ := hp.of_operator_cons
    exact .missingOperand (by simp)
  | case4 span x done y rest =>
    obtain ⟨-, -, _, rfl, -⟩ := hp.of_operator_cons
    exact .malformedBetween (by simp)
  | case5 op span hop x done y rest hb ih =>
    rw [List.reverse_cons] at hd
    obtain ⟨rfl, v, u, rfl, hv, hx⟩ := hd.of_concat_phrase
    obtain ⟨-, -, _, rfl, h₁⟩ := hp.of_operator_cons
    obtain ⟨-, m, w, rfl, hy, h₂⟩ := h₁.of_phrase_cons
    -- if the operator is an `IN`, then the items of `y` stand directly after it
    have hsplit : v ++ u ++ (.operator op span :: (m ++ w)) =
        v ++ (u ++ .operator op span :: m) ++ w := by simp
    rw [hsplit]
    have hbinary : Settles (applyBinary op span x y) _
        (·.ArisesIn (v ++ (u ++ .operator op span :: m) ++ w)) :=
      (settles_applyBinary hb hx hy).imp_error fun _ he => he.mono ⟨v, w, rfl⟩
    refine hbinary.bind fun z hz => ?_
    have hs := hv.concat_phrase hz
    rw [← List.reverse_cons] at hs
    exact ih z hs h₂
  | case6 done op span rest hop hne =>
    obtain ⟨-, -, _, rfl, -⟩ := hp.of_operator_cons
    exact .missingOperand (by simp)
  | case7 done op span rest hop ih =>
    obtain ⟨rfl, hP, w, rfl, h₁⟩ := hp.of_operator_cons
    have hnot : op ∉ tier := by
      intro hm
      cases hpre : op.isPrefix with
      | true => exact hP.2 ⟨hpre, hm⟩
      | false => exact hop (by simp [hpre, hm])
    have hs : Row _ true (done.reverse ++ [.operator op span]) (v ++ [.operator op span]) true :=
      hd.append (.operator ⟨hP.1, hnot⟩ .nil)
    rw [← List.reverse_cons] at hs
    simpa using ih hs h₁
  | case8 done part rest hpart ih =>
    cases part with
    | operator op span => exact absurd rfl (hpart _ _)
    | phrase x =>
      obtain ⟨rfl, u, w, rfl, hx, h₁⟩ := hp.of_phrase_cons
      have hs := hd.concat_phrase hx
      rw [← List.reverse_cons] at hs
      simpa using ih hs h₁
    | separator span =>
      obtain ⟨w, rfl, h₁⟩ := hp.of_separator_cons
      have hs : Row _ true (done.reverse ++ [.separator span]) (v ++ [.separator span]) true :=
        hd.append (.separator .nil)
      rw [← List.reverse_cons] at hs
      simpa using ih hs h₁

/-! ## All tiers -/

theorem settles_applyTiers {tiers : List (List Operator)} (h : Row P true ps w b) :
    Settles (applyTiers tiers ps)
      (fun qs => Row (fun op => P op ∧ ∀ tier ∈ tiers, op ∉ tier) true qs w b)
      (·.ArisesIn w) := by
  induction tiers generalizing P ps with
  | nil => exact h.imp fun op hop => ⟨hop, by simp⟩
  | cons tier rest ih =>
    refine (settles_applyPrefix h).bind fun ps₁ h₁ => ?_
    refine (settles_applyInfix (v := []) .nil h₁).bind fun ps₂ h₂ => ?_
    refine (ih h₂).imp_ok fun qs hq => hq.imp fun op hop => ?_
    exact ⟨hop.1.1, List.forall_mem_cons.2 ⟨hop.1.2, hop.2⟩⟩

/-- Where no operator is left, there may be separators that belong to no phrase. -/
theorem Row.countP_le (h : Row (fun _ => False) a ps w b) :
    (Item.direct w).countP Item.isBetween ≤ (Item.direct w).countP Item.isSeparator := by
  induction h with
  | nil => exact Nat.le_refl _
  | phrase hx _ ih =>
    have heven := hx.even
    rw [hx.balanced.direct_append, List.countP_append, List.countP_append]
    omega
  | operator hop => exact hop.elim
  | separator _ ih =>
    rw [Item.direct_leaf rfl, List.countP_cons_of_neg (by simp [Item.isBetween]),
      List.countP_cons_of_pos rfl]
    omega

theorem Row.not_separator (h : Row (fun _ => False) a (.separator span :: ps) w b) :
    (Item.direct w).countP Item.isBetween < (Item.direct w).countP Item.isSeparator := by
  obtain ⟨v, rfl, hv⟩ := h.of_separator_cons
  have hle := hv.countP_le
  rw [Item.direct_leaf rfl, List.countP_cons_of_neg (by simp [Item.isBetween]),
    List.countP_cons_of_pos rfl]
  omega

/-- If no operator is left, and there are no more separators than `BETWEEN`s, then all parts have
become one phrase. -/
theorem Row.exists_phrase (h : Row (fun _ => False) true ps w b) (hw : w ≠ [])
    (hle : (Item.direct w).countP Item.isSeparator ≤ (Item.direct w).countP Item.isBetween) :
    ∃ x, ps = [.phrase x] ∧ Item.Extent w x.span := by
  match ps with
  | [] => exact absurd h.of_nil.2 hw
  | .operator op span :: rest => exact h.of_operator_cons.2.1.elim
  | .separator span :: rest => exact absurd hle (Nat.not_le.2 h.not_separator)
  | .phrase x :: rest =>
    obtain ⟨-, u, v, rfl, hx, hr⟩ := h.of_phrase_cons
    have heven := hx.even
    rw [hx.balanced.direct_append, List.countP_append, List.countP_append] at hle
    match rest with
    | [] =>
      rw [hr.of_nil.2, List.append_nil]
      exact ⟨x, rfl, hx⟩
    | .operator op span :: rest => exact hr.of_operator_cons.2.1.elim
    | .separator span :: rest =>
      have hlt := hr.not_separator
      omega
    | .phrase y :: rest => cases hr.of_phrase_cons.1

/-- When all tiers have been applied, there is one phrase. -/
theorem Row.exists_phrase_of_tiers
    (h : Row (fun op => op ∈ t.tiers.flatten ∧ ∀ tier ∈ t.tiers, op ∉ tier) true ps w b)
    (hw : w ≠ [])
    (hle : (Item.direct w).countP Item.isSeparator ≤ (Item.direct w).countP Item.isBetween) :
    ∃ x, ps = [.phrase x] ∧ Item.Extent w x.span := by
  -- each operator is of a tier, and the operators of all tiers have been taken away
  have hnone : Row (fun _ => False) true ps w b := h.imp fun op hop => by
    obtain ⟨tier, ht, hm⟩ := List.mem_flatten.1 hop.1
    exact hop.2 tier ht hm
  exact hnone.exists_phrase hw hle

theorem settles_resolve (h : Row (· ∈ t.tiers.flatten) true ps w b) (hw : w ≠ [])
    (hle : (Item.direct w).countP Item.isSeparator ≤ (Item.direct w).countP Item.isBetween)
    (span : Span) :
    Settles (resolve t ps span) (fun x => Item.Extent w x.span) (·.ArisesIn w) := by
  have hne : ps.isEmpty = false := by
    rw [List.isEmpty_eq_false_iff]
    rintro rfl
    exact hw h.of_nil.2
  unfold resolve
  rw [if_neg (by simp [hne])]
  refine (settles_applyTiers h).bind fun qs hq => ?_
  obtain ⟨x, rfl, hx⟩ := hq.exists_phrase_of_tiers hw hle
  exact hx

end Part

/-! ## Reading items -/

namespace Nesting

open WhereClause.Part

/-- The parts of each open group stand for the items that have been read of it. -/
inductive Covers (t : OperatorTable) : List Item → Nesting → Prop
  | outermost {inner : List Part} {w : List Item} :
    Row (· ∈ t.tiers.flatten) true inner.reverse w (Item.lacksOperand w) → Covers t w { inner }
  | inside {inner before : List Part} {outer : List (Span × List Part)} {start : Span}
    {u w : List Item} : Covers t u ⟨before, outer⟩ → Item.lacksOperand u = true →
    Row (· ∈ t.tiers.flatten) true inner.reverse w (Item.lacksOperand w) →
      Covers t (u ++ .opening start :: w) ⟨inner, (start, before) :: outer⟩

variable {n n' : Nesting} {items ws : List Item} {item : Item} {p : Part} {op : Operator}
  {span : Span}

namespace Covers

theorem exists_row (h : Covers t items n) :
    ∃ u w, items = u ++ w ∧ Item.lacksOperand items = Item.lacksOperand w ∧
      Row (· ∈ t.tiers.flatten) true n.inner.reverse w (Item.lacksOperand w) := by
  cases h with
  | outermost hr => exact ⟨[], _, rfl, rfl, hr⟩
  | @inside inner before outer start u w hu _ hr =>
    exact ⟨u ++ [.opening start], w, by simp, Item.lacksOperand_opening, hr⟩

theorem mem_of_operator (h : Covers t items n) (hm : .operator op span ∈ n.inner) :
    .operator op span ∈ items := by
  obtain ⟨u, w, rfl, -, hr⟩ := h.exists_row
  exact List.mem_append_right u (hr.mem_of_operator (List.mem_reverse.2 hm))

theorem lacksOperand_eq (h : Covers t items n) :
    Part.lacksOperand n.inner = Item.lacksOperand items := by
  obtain ⟨u, w, rfl, hl, hr⟩ := h.exists_row
  rw [hl]
  exact hr.lacksOperand

/-- A part is added, with the items that it stands for. -/
theorem push {u : List Item} (h : Covers t items n) (hu : u ≠ [])
    (hp : Row (· ∈ t.tiers.flatten) (Item.lacksOperand items) [p] u (Item.lacksOperand u)) :
    Covers t (items ++ u) (n.push p) := by
  cases h with
  | @outermost inner w hr =>
    refine .outermost ?_
    rw [List.reverse_cons, Item.lacksOperand_append hu]
    exact hr.append hp
  | @inside inner before outer start v w hv hlack hr =>
    rw [List.append_assoc, List.cons_append]
    refine .inside hv hlack ?_
    rw [List.reverse_cons, Item.lacksOperand_append hu]
    rw [Item.lacksOperand_opening] at hp
    exact hr.append hp

end Covers

/-! ### What may follow -/

theorem settles_admitOperand (h : Covers t items n) (hb : item.beginsOperand = true) :
    Settles (n.admitOperand item.span) (fun _ => Item.lacksOperand items = true)
      (·.ArisesIn (items ++ [item])) := by
  unfold admitOperand
  rw [h.lacksOperand_eq]
  split
  · assumption
  · rename_i hl
    obtain ⟨before, earlier, rfl, he⟩ := Item.exists_endsOperand (Bool.eq_false_iff.2 hl)
    exact .missingOperator (List.append_assoc ..) he hb

theorem settles_admitEnd (h : Covers t items n) :
    Settles n.admitEnd (fun _ => True) (·.ArisesIn items) := by
  unfold admitEnd
  split
  · rename_i op span hl
    exact .missingOperand (h.mem_of_operator (mem_of_lacking? hl))
  · trivial

theorem settles_admitPrefix (h : Covers t items n) :
    Settles (n.admitPrefix t op) (fun _ => True) (·.ArisesIn items) := by
  unfold admitPrefix
  split
  · rename_i lacking span hl
    split
    · exact .missingOperand (h.mem_of_operator (mem_of_lacking? hl))
    · trivial
  · trivial

/-! ### One item -/

/-- A group that closes is one operand, or it is refused for items of its own. -/
theorem settles_group {inner : List Part} {w : List Item} {start stop : Span} {b : Bool}
    (hr : Row (· ∈ t.tiers.flatten) true inner.reverse w b)
    (hle : (Item.direct w).countP Item.isSeparator ≤ (Item.direct w).countP Item.isBetween) :
    Settles (resolve t inner.reverse (start.merge stop))
      (fun x => Item.Extent (.opening start :: w ++ [.closing stop]) x.span) (·.ArisesIn w) := by
  by_cases hw : w = []
  · subst hw
    rw [hr.eq_nil]
    exact .parenthesized .nil ((Item.within_span (.opening start) (by simp)).merge
      (Item.within_span (.closing stop) (by simp)))
  · exact (settles_resolve hr hw hle _).imp_ok fun _ hx => hx.group

theorem settles_closing {stop : Span} (h : Covers t items n)
    (hi : Item.Continues t items (.closing stop)) :
    Settles (step t n (.closing stop)) (Covers t (items ++ [.closing stop]))
      (·.ArisesIn items) := by
  have hend := settles_admitEnd h
  cases h with
  | outermost hr =>
    exact absurd (hi.regular.eq_nil_of_balanced hr.balanced) (hi.closing stop rfl)
  | @inside inner before outer start u w hu hlack hr =>
    have hgroup : Settles (resolve t inner.reverse (start.merge stop)) _
        (·.ArisesIn (u ++ .opening start :: w)) :=
      (settles_group hr (hi.regular.countP_le hr.balanced)).imp_error fun _ he =>
        he.mono ⟨u ++ [.opening start], [], by simp⟩
    refine hend.bind fun _ _ => hgroup.bind fun x hx => ?_
    rw [List.append_assoc]
    refine hu.push hx.ne_nil ?_
    rw [hlack, Item.lacksOperand_append (by simp)]
    exact .single hx

/-- What is read stands for its items, and what is refused is refused for them. -/
theorem settles_step (h : Covers t items n) (hi : Item.Continues t items item) :
    Settles (step t n item) (Covers t (items ++ [item]))
      (·.ArisesIn (items ++ [item])) := by
  have hread {err : SyntaxError} (he : err.ArisesIn items) : err.ArisesIn (items ++ [item]) :=
    he.mono (List.prefix_append _ _).isInfix
  have hoperand (hb : item.beginsOperand = true) := settles_admitOperand h hb
  cases item with
  | opening span =>
    refine (hoperand rfl).bind fun _ hl => ?_
    exact .inside h hl .nil
  | closing span => exact (settles_closing h hi).imp_error fun _ => hread
  | operand x span =>
    refine (hoperand rfl).bind fun _ hl => h.push (by simp) ?_
    rw [hl]
    exact .single (.leaf rfl rfl rfl)
  | list elements span =>
    refine (hoperand rfl).bind fun _ hl => h.push (by simp) ?_
    rw [hl]
    exact .single (.leaf rfl rfl rfl)
  | separator span =>
    refine ((settles_admitEnd h).imp_error fun _ => hread).bind fun _ _ => ?_
    exact h.push (by simp) (.separator .nil)
  | operator op span =>
    have hpush (hl : Item.lacksOperand items = op.isPrefix) :
        Covers t (items ++ [.operator op span]) (n.push (.operator op span)) := by
      refine h.push (by simp) ?_
      rw [hl]
      exact .operator hi.known .nil
    rw [step]
    split
    · rename_i hp
      have hprefix : Settles (n.admitPrefix t op) _ _ :=
        (settles_admitPrefix h).imp_error fun _ => hread
      exact (hoperand hp).bind fun _ hl => hprefix.bind fun _ _ => hpush (hl.trans hp.symm)
    · rename_i hp
      rw [h.lacksOperand_eq]
      split
      · exact .missingOperand (by simp)
      · rename_i hl
        exact hpush ((Bool.eq_false_iff.2 hl).trans (Bool.eq_false_iff.2 hp).symm)

/-! ### All items -/

theorem settles_foldlM (h : Covers t items n) (hi : Item.Regular t (items ++ ws)) :
    Settles (ws.foldlM (step t) n) (Covers t (items ++ ws))
      (·.ArisesIn (items ++ ws)) := by
  induction ws generalizing items n with
  | nil =>
    rw [List.append_nil]
    exact h
  | cons item rest ih =>
    rw [List.append_cons] at hi ⊢
    have hstep := (settles_step h (hi.of_prefix (List.prefix_append _ _)).continues).imp_error
      fun _ he => he.mono (List.prefix_append _ rest).isInfix
    exact hstep.bind fun n' h' => ih h' hi

end Nesting

/-- The items of a clause are refused for some of themselves. -/
theorem Phrase.arisesIn_of_ofItems {length : Nat} {tokens : List Token} {ws : List Item}
    {err : SyntaxError}
    (hi : Item.ofTokens t length tokens = .ok (ws ++ [.closing (.point length)]))
    (h : Phrase.ofItems t (ws ++ [.closing (.point length)]) = .error err) : err.ArisesIn ws := by
  have hlast := Item.continues_of_ofTokens hi rfl
  have hempty : Nesting.Covers t [] {} := .outermost .nil
  have hrun := Nesting.settles_foldlM hempty hlast.regular
  rcases bind_eq_error_iff.1 h with h | ⟨n, hn, h⟩
  · rw [List.foldlM_append] at h
    rcases bind_eq_error_iff.1 h with h | ⟨n, hn, h⟩
    · rw [h] at hrun
      exact hrun
    · rw [hn] at hrun
      have hclosing := Nesting.settles_closing hrun hlast
      rw [List.foldlM_cons] at h
      rcases bind_eq_error_iff.1 h with h | ⟨_, -, h⟩
      · rw [h] at hclosing
        exact hclosing
      · cases h
  · -- a whole group has been read, so nothing is left to be refused
    obtain ⟨body, hbody, hb, -⟩ := Item.balanced_of_ofTokens hi
    rw [hbody] at hn
    obtain ⟨x, -, -, rfl⟩ := Nesting.derives_of_group (Nesting.spells_of_foldlM hb) hn
    cases (Part.resolve_phrase x {}).symm.trans h

end WhereClause
