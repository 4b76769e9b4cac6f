import WhereClause.Phrase.Nesting
import WhereClause.Proofs.Item.Balance
import WhereClause.Proofs.Phrase.Layout

/-!
# Phrases are derived

Every phrase that is read from balanced items denotes what the grammar says of these items. The
invariant is that the parts of a group spell the items of the group: an operator or separator stands
for itself, and a phrase for items of one category that denote its tree. Applying a tier takes the
category one step up, and a group that closes turns its items into an atom.

Nothing here depends on the checks that refuse an item when it arrives.
-/

namespace WhereClause

open Grammar

variable {t : OperatorTable}

/-! ## Parts that spell items -/

/-- The parts stand for the items, and each phrase for items of the category `c`. -/
inductive Spells (t : OperatorTable) (c : Category) : List Part → List Item → Prop
  | nil : Spells t c [] []
  | phrase {x : Phrase} {ps : List Part} {u w : List Item} :
    Derives t c u x.expr → x.LaidOut → Spells t c ps w → Spells t c (.phrase x :: ps) (u ++ w)
  | operator {op : Operator} {span : Span} {ps : List Part} {w : List Item} :
    Spells t c ps w → Spells t c (.operator op span :: ps) (.operator op span :: w)
  | separator {span : Span} {ps : List Part} {w : List Item} :
    Spells t c ps w → Spells t c (.separator span :: ps) (.separator span :: w)

namespace Spells

variable {c d : Category} {ps qs : List Part} {w v : List Item} {x : Phrase}

theorem append (hp : Spells t c ps w) (hq : Spells t c qs v) :
    Spells t c (ps ++ qs) (w ++ v) := by
  induction hp with
  | nil => exact hq
  | phrase hd hl _ ih =>
    rw [List.append_assoc]
    exact .phrase hd hl ih
  | operator _ ih => exact .operator ih
  | separator _ ih => exact .separator ih

theorem of_phrase_cons (h : Spells t c (.phrase x :: ps) w) :
    ∃ u v, w = u ++ v ∧ Derives t c u x.expr ∧ x.LaidOut ∧ Spells t c ps v := by
  cases h with
  | phrase hd hl hp => exact ⟨_, _, rfl, hd, hl, hp⟩

theorem of_operator_cons {op : Operator} {span : Span}
    (h : Spells t c (.operator op span :: ps) w) :
    ∃ v, w = .operator op span :: v ∧ Spells t c ps v := by
  cases h with
  | operator hp => exact ⟨_, rfl, hp⟩

theorem of_separator_cons {span : Span} (h : Spells t c (.separator span :: ps) w) :
    ∃ v, w = .separator span :: v ∧ Spells t c ps v := by
  cases h with
  | separator hp => exact ⟨_, rfl, hp⟩

theorem of_append (h : Spells t c (ps ++ qs) w) :
    ∃ u v, w = u ++ v ∧ Spells t c ps u ∧ Spells t c qs v := by
  induction ps generalizing w with
  | nil => exact ⟨[], w, rfl, .nil, h⟩
  | cons p ps ih =>
    cases h with
    | phrase hd hl hp =>
      obtain ⟨u, v, rfl, hu, hv⟩ := ih hp
      exact ⟨_, v, (List.append_assoc ..).symm, .phrase hd hl hu, hv⟩
    | operator hp =>
      obtain ⟨u, v, rfl, hu, hv⟩ := ih hp
      exact ⟨_, v, rfl, .operator hu, hv⟩
    | separator hp =>
      obtain ⟨u, v, rfl, hu, hv⟩ := ih hp
      exact ⟨_, v, rfl, .separator hu, hv⟩

theorem of_concat_phrase (h : Spells t c (ps ++ [.phrase x]) w) :
    ∃ u v, w = u ++ v ∧ Spells t c ps u ∧ Derives t c v x.expr ∧ x.LaidOut := by
  obtain ⟨u, v, rfl, hu, hv⟩ := h.of_append
  obtain ⟨v, v', rfl, hd, hl, hn⟩ := hv.of_phrase_cons
  cases hn
  exact ⟨u, v, by simp, hu, hd, hl⟩

theorem concat_phrase (h : Spells t c ps w) (hd : Derives t c v x.expr) (hl : x.LaidOut) :
    Spells t c (ps ++ [.phrase x]) (w ++ v) := by
  have := h.append (.phrase hd hl .nil)
  rwa [List.append_nil] at this

theorem eq_nil (h : Spells t c [] w) : w = [] := by
  cases h
  rfl

end Spells

/-! ## One tier -/

namespace Part

theorem spells_applyPrefix {k : Nat} {ps qs : List Part} {w : List Item}
    (hp : Spells t (.level k) ps w) (h : applyPrefix (t.tier k) ps = .ok qs) :
    Spells t (.operand k) qs w := by
  induction hp generalizing qs with
  | nil =>
    cases h
    exact .nil
  | phrase hd hl _ ih =>
    obtain ⟨rest, hr, h⟩ := bind_eq_ok_iff.1 h
    cases h
    exact .phrase (.bare hd) hl (ih hr)
  | operator _ ih =>
    rw [applyPrefix] at h
    obtain ⟨rest, hr, h⟩ := bind_eq_ok_iff.1 h
    split at h
    · rename_i hop
      simp only [Bool.and_eq_true, List.contains_iff_mem] at hop
      split at h
      · cases h
        obtain ⟨u, v, rfl, hd, hl, hs⟩ := (ih hr).of_phrase_cons
        exact .phrase (.unary hop.2 hop.1 hd) hl.unary hs
      · cases h
    · cases h
      exact .operator (ih hr)
  | separator _ ih =>
    obtain ⟨rest, hr, h⟩ := bind_eq_ok_iff.1 h
    cases h
    exact .separator (ih hr)

/-- The parts before the one that is being read already spell the next category. -/
theorem spells_applyInfix {k : Nat} {done ps qs : List Part} {v w : List Item}
    (hd : Spells t (.level (k + 1)) done.reverse v) (hp : Spells t (.operand k) ps w)
    (h : applyInfix (t.tier k) done ps = .ok qs) : Spells t (.level (k + 1)) qs (v ++ w) := by
  fun_induction applyInfix (t.tier k) done ps generalizing v w qs with
  | case1 done =>
    cases h
    rw [hp.eq_nil, List.append_nil]
    exact hd
  | case2 span x done y stop high rest hop ih =>
    simp only [Bool.and_eq_true, List.contains_iff_mem] at hop
    rw [List.reverse_cons] at hd
    obtain ⟨v, u, rfl, hv, hx, hxl⟩ := hd.of_concat_phrase
    obtain ⟨_, rfl, h₁⟩ := hp.of_operator_cons
    obtain ⟨m, _, rfl, hy, hyl, h₂⟩ := h₁.of_phrase_cons
    obtain ⟨_, rfl, h₃⟩ := h₂.of_separator_cons
    obtain ⟨n, w, rfl, hz, hzl, h₄⟩ := h₃.of_phrase_cons
    have he : Derives t (.level (k + 1)) (u ++ .operator .between span :: m ++ .separator stop :: n)
        (Phrase.ternary .between span x y high).expr := .between hop.2 hx hy hz
    have hs := hv.concat_phrase he (hxl.ternary hyl hzl)
    rw [← List.reverse_cons] at hs
    simpa using ih hs h₄ h
  | case3 | case4 => cases h
  | case5 op span hop x done y rest hb ih =>
    simp only [Bool.and_eq_true, Bool.not_eq_true', List.contains_iff_mem] at hop
    obtain ⟨z, hz, h⟩ := bind_eq_ok_iff.1 h
    rw [List.reverse_cons] at hd
    obtain ⟨v, u, rfl, hv, hx, hxl⟩ := hd.of_concat_phrase
    obtain ⟨_, rfl, h₁⟩ := hp.of_operator_cons
    obtain ⟨m, w, rfl, hy, hyl, h₂⟩ := h₁.of_phrase_cons
    obtain ⟨hzl, hb'⟩ := hxl.applyBinary hyl hz
    have ha := OperatorTable.arity_eq_binary hop.2 (by simp [hop.1]) hb
    have he : Derives t (.level (k + 1)) (u ++ .operator op span :: m) z.expr :=
      .binary hop.2 ha hx hy hb'
    have hs := hv.concat_phrase he hzl
    rw [← List.reverse_cons] at hs
    simpa using ih z hs h₂ h
  | case6 => cases h
  | case7 done op span rest hop ih =>
    obtain ⟨w, rfl, h₁⟩ := hp.of_operator_cons
    have hs : Spells t (.level (k + 1)) (done.reverse ++ [.operator op span])
        (v ++ [.operator op span]) := hd.append (.operator .nil)
    rw [← List.reverse_cons] at hs
    simpa using ih hs h₁ h
  | case8 done part rest hpart ih =>
    cases hp with
    | phrase hx hxl hp =>
      have hs := hd.concat_phrase (.single hx) hxl
      rw [← List.reverse_cons] at hs
      simpa using ih hs hp h
    | operator => exact absurd rfl (hpart _ _)
    | @separator span _ w hp =>
      have hs : Spells t (.level (k + 1)) (done.reverse ++ [.separator span])
          (v ++ [.separator span]) := hd.append (.separator .nil)
      rw [← List.reverse_cons] at hs
      simpa using ih hs hp h

/-! ## All tiers -/

theorem spells_applyTiers {k : Nat} {ps qs : List Part} {w : List Item} (hk : k ≤ t.tiers.length)
    (hp : Spells t (.level k) ps w) (h : applyTiers (t.tiers.drop k) ps = .ok qs) :
    Spells t (.level t.tiers.length) qs w := by
  induction hn : t.tiers.length - k generalizing k ps with
  | zero =>
    obtain rfl : k = t.tiers.length := by omega
    rw [List.drop_length] at h
    cases h
    exact hp
  | succ n ih =>
    have hlt : k < t.tiers.length := by omega
    rw [List.drop_eq_getElem_cons hlt, ← OperatorTable.tier_eq_getElem hlt, applyTiers] at h
    obtain ⟨ps₁, h₁, h⟩ := bind_eq_ok_iff.1 h
    obtain ⟨ps₂, h₂, h⟩ := bind_eq_ok_iff.1 h
    have hs := spells_applyInfix (v := []) .nil (spells_applyPrefix hp h₁) h₂
    exact ih (by omega) hs h (by omega)

/-- A closed group, with the parentheses around its items, is an atom. -/
theorem derives_of_resolve {start stop : Span} {ps : List Part} {w : List Item} {x : Phrase}
    (hp : Spells t (.level 0) ps w) (h : resolve t ps (start.merge stop) = .ok x) :
    Derives t (.level 0) (.opening start :: w ++ [.closing stop]) x.expr ∧ x.LaidOut := by
  unfold resolve at h
  split at h
  · rename_i he
    cases h
    obtain rfl := List.isEmpty_iff.1 he
    rw [hp.eq_nil]
    exact ⟨.empty, by simp [Phrase.LaidOut, Expr.layout, Expr.layoutAll]⟩
  · obtain ⟨qs, hq, h⟩ := bind_eq_ok_iff.1 h
    split at h
    · cases h
      obtain ⟨u, v, rfl, hd, hl, hn⟩ := (spells_applyTiers (Nat.zero_le _) hp hq).of_phrase_cons
      rw [hn.eq_nil, List.append_nil]
      exact ⟨.group hd, hl⟩
    all_goals cases h

theorem applyTiers_phrase (tiers : List (List Operator)) (x : Phrase) :
    applyTiers tiers [.phrase x] = .ok [.phrase x] := by
  induction tiers with
  | nil => rfl
  | cons tier rest ih => simp [applyTiers, applyPrefix, applyInfix, ih]

theorem resolve_phrase (x : Phrase) (span : Span) : resolve t [.phrase x] span = .ok x := by
  simp [resolve, applyTiers_phrase]

end Part

/-! ## Items of a clause -/

namespace Nesting

variable {n n' : Nesting} {w : List Item}

/-- Reading an item that is no parenthesis adds one part, which spells it. -/
theorem spells_of_step {item : Item} (hl : item.isLeaf) (h : step t n item = .ok n') :
    ∃ p, Spells t (.level 0) [p] [item] ∧ n' = n.push p := by
  cases item with
  | opening | closing => cases hl
  | operand x span =>
    obtain ⟨-, -, h⟩ := bind_eq_ok_iff.1 h
    cases h
    exact ⟨_, .phrase .operand (Phrase.laidOut_ofOperand x span) .nil, rfl⟩
  | list elements span =>
    obtain ⟨-, -, h⟩ := bind_eq_ok_iff.1 h
    cases h
    exact ⟨_, .phrase .list (Phrase.laidOut_ofElements elements span) .nil, rfl⟩
  | separator span =>
    obtain ⟨-, -, h⟩ := bind_eq_ok_iff.1 h
    cases h
    exact ⟨_, .separator .nil, rfl⟩
  | operator op span =>
    refine ⟨.operator op span, .operator .nil, ?_⟩
    rw [step] at h
    split at h
    · obtain ⟨-, -, h⟩ := bind_eq_ok_iff.1 h
      obtain ⟨-, -, h⟩ := bind_eq_ok_iff.1 h
      cases h
      rfl
    · split at h
      · cases h
      · cases h
        rfl

/-- If the parts of a group spell its items, then the group, when it closes, is an atom. -/
theorem derives_of_group {start stop : Span}
    (hw : ∀ {n n' : Nesting}, w.foldlM (step t) n = .ok n' →
      ∃ ps, Spells t (.level 0) ps w ∧ n' = { n with inner := ps.reverse ++ n.inner })
    (h : (Item.opening start :: w ++ [Item.closing stop]).foldlM (step t) n = .ok n') :
    ∃ x, Derives t (.level 0) (.opening start :: w ++ [.closing stop]) x.expr ∧ x.LaidOut ∧
      n' = n.push (.phrase x) := by
  rw [List.cons_append] at h
  obtain ⟨m₁, h₁, h⟩ := foldlM_cons_eq_ok_iff.1 h
  obtain ⟨m₂, h₂, h⟩ := foldlM_append_eq_ok_iff.1 h
  obtain ⟨m₃, h₃, h⟩ := foldlM_cons_eq_ok_iff.1 h
  cases h
  obtain ⟨-, -, h₁⟩ := bind_eq_ok_iff.1 h₁
  cases h₁
  obtain ⟨ps, hps, rfl⟩ := hw h₂
  obtain ⟨-, -, h₃⟩ := bind_eq_ok_iff.1 h₃
  obtain ⟨x, hx, h₃⟩ := bind_eq_ok_iff.1 h₃
  cases h₃
  rw [List.append_nil, List.reverse_reverse] at hx
  obtain ⟨hd, hl⟩ := Part.derives_of_resolve hps hx
  exact ⟨x, hd, hl, rfl⟩

theorem spells_of_foldlM (hw : Item.Balanced w) (h : w.foldlM (step t) n = .ok n') :
    ∃ ps, Spells t (.level 0) ps w ∧ n' = { n with inner := ps.reverse ++ n.inner } := by
  induction hw generalizing n n' with
  | nil =>
    cases h
    exact ⟨[], .nil, rfl⟩
  | leaf hl _ ih =>
    obtain ⟨m, hm, h⟩ := foldlM_cons_eq_ok_iff.1 h
    obtain ⟨p, hp, rfl⟩ := spells_of_step hl hm
    obtain ⟨ps, hs, rfl⟩ := ih h
    exact ⟨p :: ps, hp.append hs, by simp [push]⟩
  | @group start stop u w _ _ ihu ihw =>
    rw [List.append_cons] at h ⊢
    obtain ⟨m, hm, h⟩ := foldlM_append_eq_ok_iff.1 h
    obtain ⟨x, hd, hl, rfl⟩ := derives_of_group ihu hm
    obtain ⟨ps, hs, rfl⟩ := ihw h
    exact ⟨.phrase x :: ps, .phrase hd hl hs, by simp [push]⟩

end Nesting

/-- A phrase of balanced items in parentheses denotes what the grammar says. -/
theorem Phrase.isClause_of_ofItems {start stop : Span} {body : List Item} {x : Phrase}
    (hb : Item.Balanced body)
    (h : Phrase.ofItems t (.opening start :: body ++ [.closing stop]) = .ok x) :
    IsClause t (.opening start :: body ++ [.closing stop]) x.expr ∧ x.LaidOut := by
  obtain ⟨n, hn, h⟩ := bind_eq_ok_iff.1 h
  obtain ⟨y, hd, hl, rfl⟩ := Nesting.derives_of_group (Nesting.spells_of_foldlM hb) hn
  have hx := (Part.resolve_phrase y {}).symm.trans h
  cases hx
  exact ⟨⟨⟨_, _, _, rfl⟩, hd⟩, hl⟩

end WhereClause
