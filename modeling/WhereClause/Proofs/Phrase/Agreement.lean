import WhereClause.Proofs.Item.Agreement
import WhereClause.Proofs.Phrase.Soundness

/-!
# Phrases by tables that agree

If all operators among the parts of a group are such that two tables order them in the same way,
then the group becomes the same phrase by either table, or is refused with the same error. A tier
that holds none of them changes nothing, and of any other it matters only which of them it holds.
Applying a tier adds no operators, so the argument goes through all tiers and all groups.
-/

namespace WhereClause

variable {t u : OperatorTable} {tokens : List Token} {U : Operator → Prop}

/-! ## Parts -/

namespace Part

variable {tier tier' : List Operator} {ts us : List (List Operator)}
  {done parts parts' : List Part}

/-- If the part is an operator, then `U` holds of it. -/
def Among (U : Operator → Prop) : Part → Prop
  | .operator op _ => U op
  | _ => True

theorem applyPrefix_congr (h : SameOn U tier tier') (hp : ∀ part ∈ parts, part.Among U) :
    applyPrefix tier parts = applyPrefix tier' parts := by
  fun_induction applyPrefix tier parts with
  | case1 => rfl
  | case2 op span rest ih =>
    obtain ⟨ho, hr⟩ := List.forall_mem_cons.1 hp
    rw [applyPrefix, ih hr, h.contains_eq ho]
  | case3 part rest hpart ih =>
    rw [applyPrefix, ih (List.forall_mem_cons.1 hp).2]
    exact hpart

theorem among_applyPrefix (hp : ∀ part ∈ parts, part.Among U)
    (h : applyPrefix tier parts = .ok parts') : ∀ part ∈ parts', part.Among U := by
  fun_induction applyPrefix tier parts generalizing parts' with
  | case1 =>
    cases h
    exact hp
  | case2 op span rest ih =>
    obtain ⟨ho, hr⟩ := List.forall_mem_cons.1 hp
    obtain ⟨rest', hr', h⟩ := bind_eq_ok_iff.1 h
    have hrest := ih hr hr'
    split at h
    · split at h <;> cases h
      exact List.forall_mem_cons.2 ⟨trivial, (List.forall_mem_cons.1 hrest).2⟩
    · cases h
      exact List.forall_mem_cons.2 ⟨ho, hrest⟩
  | case3 part rest _ ih =>
    obtain ⟨ho, hr⟩ := List.forall_mem_cons.1 hp
    obtain ⟨rest', hr', h⟩ := bind_eq_ok_iff.1 h
    cases h
    exact List.forall_mem_cons.2 ⟨ho, ih hr hr'⟩

theorem applyInfix_congr (h : SameOn U tier tier') (hp : ∀ part ∈ parts, part.Among U) :
    applyInfix tier done parts = applyInfix tier' done parts := by
  fun_induction applyInfix tier done parts with
  | case1 => rfl
  | case2 span x done y stop high rest hop ih =>
    rw [h.contains_eq (hp _ List.mem_cons_self)] at hop
    conv_rhs => rw [applyInfix.eq_def]
    simp only [hop, if_true]
    exact ih fun part hm => hp part (by simp [hm])
  | case3 | case4 =>
    rename_i hop
    rw [h.contains_eq (hp _ List.mem_cons_self)] at hop
    conv_rhs => rw [applyInfix.eq_def]
    simp only [hop, if_true]
  | case5 op span hop x done y rest hb ih =>
    rw [h.contains_eq (hp _ List.mem_cons_self)] at hop
    conv_rhs => rw [applyInfix.eq_def]
    simp only [hop, if_true, if_neg hb]
    exact bind_congr fun z => ih z fun part hm => hp part (by simp [hm])
  | case6 done op span rest hop hne =>
    rw [h.contains_eq (hp _ List.mem_cons_self)] at hop
    conv_rhs => rw [applyInfix.eq_def]
    simp only [hop, if_true]
  | case7 done op span rest hop ih =>
    rw [h.contains_eq (hp _ List.mem_cons_self)] at hop
    conv_rhs => rw [applyInfix.eq_def]
    simp only [if_neg hop]
    exact ih (List.forall_mem_cons.1 hp).2
  | case8 done part rest hpart ih =>
    rw [applyInfix, ih (List.forall_mem_cons.1 hp).2]
    exact hpart

theorem among_applyInfix (hd : ∀ part ∈ done, part.Among U) (hp : ∀ part ∈ parts, part.Among U)
    (h : applyInfix tier done parts = .ok parts') : ∀ part ∈ parts', part.Among U := by
  fun_induction applyInfix tier done parts with
  | case1 done =>
    cases h
    exact fun part hm => hd part (List.mem_reverse.1 hm)
  | case2 span x done y stop high rest hop ih =>
    refine ih (List.forall_mem_cons.2 ⟨trivial, (List.forall_mem_cons.1 hd).2⟩) ?_ h
    exact fun part hm => hp part (by simp [hm])
  | case3 | case4 | case6 => cases h
  | case5 op span hop x done y rest hb ih =>
    obtain ⟨z, -, h⟩ := bind_eq_ok_iff.1 h
    refine ih z (List.forall_mem_cons.2 ⟨trivial, (List.forall_mem_cons.1 hd).2⟩) ?_ h
    exact fun part hm => hp part (by simp [hm])
  | case7 | case8 =>
    rename_i ih
    obtain ⟨hpart, hrest⟩ := List.forall_mem_cons.1 hp
    exact ih (List.forall_mem_cons.2 ⟨hpart, hd⟩) hrest h

theorem applyPrefix_nil (parts : List Part) : applyPrefix [] parts = .ok parts := by
  induction parts with
  | nil => rfl
  | cons part rest ih => cases part <;> simp [applyPrefix, ih]

theorem applyInfix_nil (done parts : List Part) :
    applyInfix [] done parts = .ok (done.reverse ++ parts) := by
  induction parts generalizing done with
  | nil => simp [applyInfix]
  | cons part rest ih =>
    cases part with
    | operator op span =>
      rw [applyInfix.eq_def]
      simp [ih]
    | phrase | separator => simp [applyInfix, ih]

/-- First tiers that hold the same operators are applied in the same way. -/
theorem applyTiers_cons_congr (h : SameOn U tier tier') (hp : ∀ part ∈ parts, part.Among U)
    (hr : ∀ rest : List Part, (∀ part ∈ rest, part.Among U) →
      applyTiers ts rest = applyTiers us rest) :
    applyTiers (tier :: ts) parts = applyTiers (tier' :: us) parts := by
  rw [applyTiers, applyTiers, ← applyPrefix_congr h hp]
  refine ensures_iff.2 (fun parts₁ => among_applyPrefix hp) fun parts₁ h₁ => ?_
  rw [← applyInfix_congr h h₁]
  exact ensures_iff.2 (fun parts₂ => among_applyInfix (by simp) h₁) fun parts₂ h₂ => hr parts₂ h₂

theorem applyTiers_nil_cons (ts : List (List Operator)) (parts : List Part) :
    applyTiers ([] :: ts) parts = applyTiers ts parts := by
  rw [applyTiers, applyPrefix_nil, ok_bind, applyInfix_nil, ok_bind]
  rfl

theorem applyTiers_congr (h : Aligned U ts us) (hp : ∀ part ∈ parts, part.Among U) :
    applyTiers ts parts = applyTiers us parts := by
  induction h generalizing parts with
  | nil => rfl
  | both hs _ ih => exact applyTiers_cons_congr hs hp fun rest hr => ih hr
  | left hs _ ih =>
    exact (applyTiers_cons_congr hs hp fun rest hr => ih hr).trans (applyTiers_nil_cons _ _)
  | right hs _ ih =>
    exact (applyTiers_nil_cons _ _).symm.trans (applyTiers_cons_congr hs hp fun rest hr => ih hr)

theorem resolve_congr (h : Aligned U t.tiers u.tiers) (hp : ∀ part ∈ parts, part.Among U)
    (span : Span) : resolve t parts span = resolve u parts span := by
  rw [resolve, resolve, applyTiers_congr h hp]

theorem among_lacking? {found : Operator × Span} (hp : ∀ part ∈ parts, part.Among U)
    (h : lacking? parts = some found) : U found.1 :=
  hp _ (mem_of_lacking? h)

end Part

/-! ## Groups -/

namespace Nesting

variable {n n' : Nesting} {item : Item}

/-- `U` holds of all operators of the open groups. -/
structure Among (U : Operator → Prop) (n : Nesting) : Prop where
  inner : ∀ part ∈ n.inner, part.Among U
  outer : ∀ group ∈ n.outer, ∀ part ∈ group.2, part.Among U

theorem among_empty : Among U {} :=
  ⟨by simp, by simp⟩

theorem Among.push {part : Part} (h : n.Among U) (hp : part.Among U) : (n.push part).Among U :=
  ⟨List.forall_mem_cons.2 ⟨hp, h.inner⟩, h.outer⟩

theorem admitPrefix_congr {op : Operator} (h : t.AgreeOn u tokens)
    (hn : n.Among (· ∈ t.used tokens)) (ho : op ∈ t.used tokens) :
    n.admitPrefix t op = n.admitPrefix u op := by
  unfold admitPrefix
  split
  · rename_i hl
    rw [h.tighter _ (Part.among_lacking? hn.inner hl) _ ho]
  · rfl

theorem resolve_inner_congr (h : t.AgreeOn u tokens) (hn : n.Among (· ∈ t.used tokens))
    (span : Span) : Part.resolve t n.inner.reverse span = Part.resolve u n.inner.reverse span :=
  Part.resolve_congr h.aligned (fun part hm => hn.inner part (List.mem_reverse.1 hm)) span

theorem step_congr (h : t.AgreeOn u tokens) (hn : n.Among (· ∈ t.used tokens))
    (hi : item.Among (· ∈ t.used tokens)) : step t n item = step u n item := by
  cases item with
  | opening | operand | list | separator => rfl
  | closing span =>
    rw [step, step]
    split
    · rfl
    · rw [resolve_inner_congr h hn]
  | operator op span => rw [step, step, admitPrefix_congr h hn hi]

theorem among_step (hn : n.Among U) (hi : item.Among U) (h : step t n item = .ok n') :
    n'.Among U := by
  cases item with
  | opening span =>
    obtain ⟨-, -, h⟩ := bind_eq_ok_iff.1 h
    cases h
    exact ⟨by simp, List.forall_mem_cons.2 ⟨hn.inner, hn.outer⟩⟩
  | operand x span | list elements span | separator span =>
    obtain ⟨-, -, h⟩ := bind_eq_ok_iff.1 h
    cases h
    exact hn.push trivial
  | operator op span =>
    rw [step] at h
    split at h
    · obtain ⟨-, -, h⟩ := bind_eq_ok_iff.1 h
      obtain ⟨-, -, h⟩ := bind_eq_ok_iff.1 h
      cases h
      exact hn.push hi
    · split at h <;> cases h
      exact hn.push hi
  | closing span =>
    rw [step] at h
    split at h
    · cases h
    · rename_i ho
      obtain ⟨-, -, h⟩ := bind_eq_ok_iff.1 h
      obtain ⟨x, -, h⟩ := bind_eq_ok_iff.1 h
      cases h
      obtain ⟨hbefore, houter⟩ := List.forall_mem_cons.1 (ho ▸ hn.outer)
      exact ⟨List.forall_mem_cons.2 ⟨trivial, hbefore⟩, houter⟩

end Nesting

/-- Items become the same phrase, or are refused with the same error. -/
theorem Phrase.ofItems_congr (h : t.AgreeOn u tokens) {items : List Item}
    (hi : ∀ item ∈ items, item.Among (· ∈ t.used tokens)) : ofItems t items = ofItems u items := by
  have hsame (n : Nesting) (hn : n.Among (· ∈ t.used tokens)) (item : Item) (hm : item ∈ items) :
      Nesting.step t n item = Nesting.step u n item := Nesting.step_congr h hn (hi item hm)
  have hamong (n : Nesting) (hn : n.Among (· ∈ t.used tokens)) (item : Item) (hm : item ∈ items) :
      Ensures (Nesting.step t n item) (Nesting.Among (· ∈ t.used tokens)) :=
    ensures_iff.2 fun n' => Nesting.among_step hn (hi item hm)
  obtain ⟨heq, hrun⟩ := foldlM_congr hsame hamong Nesting.among_empty
  rw [ofItems, ofItems, ← heq]
  refine hrun fun n hn => ?_
  rw [Nesting.finish, Nesting.finish, Nesting.resolve_inner_congr h hn]

end WhereClause
