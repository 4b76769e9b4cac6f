import WhereClause.Proofs.Phrase.Soundness

/-!
# Everything derived is read

Items that the grammar derives are read into a phrase of the tree that they denote. The tiers are
applied to a whole group at a time, so the point is that they act locally: what stands left or right
of an operator that is not applied yet has no influence on the other side.

Since reading is a function, the items of a clause denote at most one tree.
-/

namespace WhereClause

open Grammar

namespace Part

/-! ## Some of the tiers -/

section Collapse

variable (t : OperatorTable)

/-- The parts of a group after the tiers below `k` have been applied. -/
def collapse : Nat → List Part → Except SyntaxError (List Part)
  | 0, ps => .ok ps
  | k + 1, ps => do
    let ps ← collapse k ps
    let ps ← applyPrefix (t.tier k) ps
    applyInfix (t.tier k) [] ps

/-- The parts of a group after the prefix operators of tier `k` have been applied, too. -/
def collapsePrefix (k : Nat) (ps : List Part) : Except SyntaxError (List Part) := do
  let ps ← collapse t k ps
  applyPrefix (t.tier k) ps

end Collapse

variable {t : OperatorTable} {k : Nat}

theorem collapse_succ (ps : List Part) :
    collapse t (k + 1) ps = collapsePrefix t k ps >>= applyInfix (t.tier k) [] := by
  simp only [collapse, collapsePrefix]
  cases collapse t k ps <;> rfl

theorem applyTiers_concat (tiers : List (List Operator)) (tier : List Operator) (ps : List Part) :
    applyTiers (tiers ++ [tier]) ps =
      applyTiers tiers ps >>= fun ps => applyPrefix tier ps >>= applyInfix tier [] := by
  induction tiers generalizing ps with
  | nil =>
    simp only [List.nil_append, applyTiers, ok_bind]
    cases applyPrefix tier ps with
    | error e => rfl
    | ok qs => cases hq : applyInfix tier [] qs <;> simp [hq]
  | cons first rest ih =>
    simp only [List.cons_append, applyTiers]
    cases applyPrefix first ps with
    | error e => rfl
    | ok qs =>
      cases hq : applyInfix first [] qs with
      | error e => simp [hq]
      | ok rs => simp [hq, ih]

theorem applyTiers_take (hk : k ≤ t.tiers.length) (ps : List Part) :
    applyTiers (t.tiers.take k) ps = collapse t k ps := by
  induction k with
  | zero => rfl
  | succ k ih =>
    rw [List.take_succ_eq_append_getElem (by omega), applyTiers_concat, ih (by omega),
      ← OperatorTable.tier_eq_getElem (by omega)]
    rfl

theorem applyTiers_eq_collapse (ps : List Part) :
    applyTiers t.tiers ps = collapse t t.tiers.length ps := by
  rw [← applyTiers_take (Nat.le_refl _), List.take_length]

/-! ## Single steps -/

section Steps

variable {tier : List Operator} {op : Operator} {span stop : Span} {x y high : Phrase}
  {done rest : List Part}

theorem applyInfix_between (h : .between ∈ tier) :
    applyInfix tier (.phrase x :: done)
        (.operator .between span :: .phrase y :: .separator stop :: .phrase high :: rest) =
      applyInfix tier (.phrase (.ternary .between span x y high) :: done) rest := by
  have hop : (!Operator.between.isPrefix && tier.contains .between) = true := by
    simpa [Operator.isPrefix, Operator.arity] using h
  conv => lhs; rw [applyInfix, if_pos hop]
  simp only [if_true]

theorem applyInfix_binary (h : op ∈ tier) (ha : op.arity = .binary) :
    applyInfix tier (.phrase x :: done) (.operator op span :: .phrase y :: rest) =
      applyBinary op span x y >>= fun z => applyInfix tier (.phrase z :: done) rest := by
  have hop : (!op.isPrefix && tier.contains op) = true := by
    simpa [Operator.isPrefix, ha] using h
  have hb : op ≠ .between := by
    rintro rfl
    cases ha
  rw [applyInfix.eq_def]
  simp only [hop, if_true, if_neg hb]

theorem applyInfix_skip {s : Part}
    (h : ∀ op span, s = .operator op span → ¬ (!op.isPrefix && tier.contains op) = true) :
    applyInfix tier done (s :: rest) = applyInfix tier (s :: done) rest := by
  cases s with
  | operator op span =>
    rw [applyInfix.eq_def]
    simp only [if_neg (h op span rfl)]
  | phrase | separator => rfl

end Steps

/-! ## Locality -/

/-- A part that no tier below `k` applies or takes as an operand. -/
def Inert (t : OperatorTable) (k : Nat) : Part → Prop
  | .phrase _ => False
  | .operator op _ => ∀ j < k, op ∉ t.tier j
  | .separator _ => True

theorem Inert.mono {s : Part} {j : Nat} (h : Inert t k s) (hj : j ≤ k) : Inert t j s := by
  cases s with
  | phrase => exact h
  | operator => exact fun i hi => h i (by omega)
  | separator => trivial

theorem inert_operator {op : Operator} {span : Span} {j : Nat} (h : op ∈ t.tier j) (hk : k ≤ j) :
    Inert t k (.operator op span) := by
  intro i hi hm
  have := OperatorTable.tier_unique h hm
  omega

theorem applyPrefix_cons {s : Part} {ps qs : List Part}
    (hs : ∀ op span, s = .operator op span → ¬ (op.isPrefix ∧ op ∈ t.tier k))
    (h : applyPrefix (t.tier k) ps = .ok qs) :
    applyPrefix (t.tier k) (s :: ps) = .ok (s :: qs) := by
  cases s with
  | operator op span =>
    have hn := hs op span rfl
    simp only [applyPrefix, h, ok_bind]
    rw [if_neg (by simpa using hn)]
  | phrase | separator => simp [applyPrefix, h]

/-- What a successful application does not take as an operand, it leaves alone. -/
theorem applyInfix_frame {tier : List Operator} {done b rest qs : List Part}
    (h : applyInfix tier done rest = .ok qs) :
    applyInfix tier (done ++ b) rest = .ok (b.reverse ++ qs) := by
  fun_induction applyInfix tier done rest with
  | case1 done =>
    cases h
    simp [applyInfix]
  | case2 span x done y stop high rest hop ih =>
    simp only [Bool.and_eq_true, List.contains_iff_mem] at hop
    rw [List.cons_append, applyInfix_between hop.2]
    exact ih h
  | case3 | case4 => cases h
  | case5 op span hop x done y rest hb ih =>
    obtain ⟨z, hz, h⟩ := bind_eq_ok_iff.1 h
    rw [List.cons_append, applyInfix.eq_def]
    simp only [hop, if_true, if_neg hb, hz, ok_bind]
    exact ih z h
  | case6 => cases h
  | case7 done op span rest hop ih =>
    rw [applyInfix_skip]
    · exact ih h
    · rintro _ _ ⟨⟩
      exact hop
  | case8 done part rest hp ih =>
    rw [applyInfix_skip fun op span he => absurd he (hp op span)]
    exact ih h

theorem applyInfix_cons {s : Part} {done ps qs : List Part} (hs : Inert t (k + 1) s)
    (h : applyInfix (t.tier k) [] ps = .ok qs) :
    applyInfix (t.tier k) done (s :: ps) = .ok (done.reverse ++ s :: qs) := by
  rw [applyInfix_skip]
  · simpa using applyInfix_frame (b := s :: done) h
  · rintro op span rfl
    have : op ∉ t.tier k := hs k (by omega)
    simp [this]

theorem collapse_cons {s : Part} {ps qs : List Part} (hs : Inert t k s)
    (h : collapse t k ps = .ok qs) : collapse t k (s :: ps) = .ok (s :: qs) := by
  induction k generalizing qs with
  | zero =>
    cases h
    rfl
  | succ k ih =>
    obtain ⟨ps₁, h₁, h⟩ := bind_eq_ok_iff.1 h
    obtain ⟨ps₂, h₂, h⟩ := bind_eq_ok_iff.1 h
    have hn : ∀ op span, s = .operator op span → ¬ (op.isPrefix ∧ op ∈ t.tier k) := by
      rintro op span rfl hm
      exact hs k (by omega) hm.2
    simp only [collapse, ih (hs.mono (by omega)) h₁, applyPrefix_cons hn h₂, ok_bind]
    exact applyInfix_cons hs h

/-! ## Parts that collapse -/

/-- Parts that may follow an expression of the tiers below `k`, and what `f` makes of them. -/
inductive Follows (t : OperatorTable) (k : Nat)
    (f : List Part → Except SyntaxError (List Part)) : List Part → List Part → Prop
  | nil : Follows t k f [] []
  | cons {s : Part} {rest qs : List Part} : Inert t k s →
    (∀ op span, s = .operator op span → ¬ op.isPrefix) → f rest = .ok qs →
      Follows t k f (s :: rest) (s :: qs)

/-- The tiers of a category make the phrase `x` of the parts, whatever may follow. At a chain of
operators the tier itself is left to be applied from the left on, by `applyInfix`. -/
def Collapses (t : OperatorTable) : Category → List Part → Phrase → Prop
  | .level 0, ps, x => ps = [.phrase x]
  | .level (k + 1), ps, x => ∃ chain,
    (∀ rest qs, Follows t k (collapsePrefix t k) rest qs →
      collapsePrefix t k (ps ++ rest) = .ok (chain ++ qs)) ∧
    ∀ done rest, applyInfix (t.tier k) done (chain ++ rest) =
      applyInfix (t.tier k) (.phrase x :: done) rest
  | .operand k, ps, x => ∀ rest qs, Follows t k (collapsePrefix t k) rest qs →
    collapsePrefix t k (ps ++ rest) = .ok (.phrase x :: qs)

section Collapses

variable {ps qs rest : List Part} {x y z : Phrase} {op : Operator} {span stop : Span}

theorem Collapses.collapse (h : Collapses t (.level k) ps x)
    (hf : Follows t k (collapse t k) rest qs) :
    collapse t k (ps ++ rest) = .ok (.phrase x :: qs) := by
  cases k with
  | zero =>
    obtain rfl : ps = [.phrase x] := h
    cases hf with
    | nil => rfl
    | cons _ _ hr =>
      cases hr
      rfl
  | succ k =>
    obtain ⟨chain, hp, hi⟩ := h
    rw [collapse_succ]
    cases hf with
    | nil => rw [hp [] [] .nil, ok_bind, hi, applyInfix]; rfl
    | cons hs hn hr =>
      rw [collapse_succ] at hr
      obtain ⟨rs, hr, hrs⟩ := bind_eq_ok_iff.1 hr
      rw [hp _ _ (.cons (hs.mono (by omega)) hn hr), ok_bind, hi, applyInfix_cons hs hrs]
      rfl

theorem Collapses.bare (h : Collapses t (.level k) ps x) : Collapses t (.operand k) ps x := by
  intro rest qs hf
  unfold collapsePrefix
  cases hf with
  | nil => rw [h.collapse .nil, ok_bind]; rfl
  | cons hs hn hr =>
    obtain ⟨rs, hr, hrs⟩ := bind_eq_ok_iff.1 hr
    rw [h.collapse (.cons hs hn hr), ok_bind]
    refine applyPrefix_cons (by simp) (applyPrefix_cons (fun op span he hm => ?_) hrs)
    exact hn op span he hm.1

theorem Collapses.unary (hm : op ∈ t.tier k) (hp : op.isPrefix)
    (h : Collapses t (.operand k) ps x) :
    Collapses t (.operand k) (.operator op span :: ps) (.unary op span x) := by
  intro rest qs hf
  obtain ⟨rs, hr, hrs⟩ := bind_eq_ok_iff.1 (h rest qs hf)
  rw [List.cons_append, collapsePrefix, collapse_cons (inert_operator hm (Nat.le_refl k)) hr,
    ok_bind, applyPrefix, hrs, ok_bind, if_pos (by simp [hp, hm])]

theorem Collapses.single (h : Collapses t (.operand k) ps x) :
    Collapses t (.level (k + 1)) ps x :=
  ⟨[.phrase x], h, fun _ _ => rfl⟩

theorem Collapses.binary (hm : op ∈ t.tier k) (ha : op.arity = .binary)
    (hx : Collapses t (.level (k + 1)) ps x) (hy : Collapses t (.operand k) qs y)
    (hz : applyBinary op span x y = .ok z) :
    Collapses t (.level (k + 1)) (ps ++ .operator op span :: qs) z := by
  obtain ⟨chain, hp, hi⟩ := hx
  refine ⟨chain ++ [.operator op span, .phrase y], fun rest rs hf => ?_, fun done rest => ?_⟩
  · have hn : ¬ op.isPrefix := by simp [Operator.isPrefix, ha]
    have hs : Inert t k (.operator op span) := inert_operator hm (Nat.le_refl k)
    have := hp _ _ (.cons hs (by rintro _ _ ⟨⟩; exact hn) (hy rest rs hf))
    simpa using this
  · have := hi done (.operator op span :: .phrase y :: rest)
    rw [applyInfix_binary hm ha, hz, ok_bind] at this
    simpa using this

theorem Collapses.between {vs : List Part} (hm : .between ∈ t.tier k)
    (hx : Collapses t (.level (k + 1)) ps x) (hy : Collapses t (.operand k) qs y)
    (hz : Collapses t (.operand k) vs z) :
    Collapses t (.level (k + 1)) (ps ++ .operator .between span :: qs ++ .separator stop :: vs)
      (.ternary .between span x y z) := by
  obtain ⟨chain, hp, hi⟩ := hx
  refine ⟨chain ++ [.operator .between span, .phrase y, .separator stop, .phrase z],
    fun rest rs hf => ?_, fun done rest => ?_⟩
  · have hs : Inert t k (.operator .between span) := inert_operator hm (Nat.le_refl k)
    have h₁ := hy _ _ (.cons (s := .separator stop) trivial (by simp) (hz rest rs hf))
    have h₂ := hp _ _ (.cons hs (by rintro _ _ ⟨⟩; decide) h₁)
    simpa using h₂
  · have := hi done (.operator .between span :: .phrase y :: .separator stop :: .phrase z :: rest)
    rw [applyInfix_between hm] at this
    simpa using this

theorem Collapses.resolve (h : Collapses t (.level t.tiers.length) ps x) (hne : ps ≠ []) :
    resolve t ps span = .ok x := by
  have hc := h.collapse .nil
  rw [List.append_nil] at hc
  rw [Part.resolve, if_neg (by simpa using hne), applyTiers_eq_collapse, hc]
  rfl

end Collapses

end Part

/-! ## Items that are read -/

namespace Nesting

variable {t : OperatorTable} {n : Nesting} {k : Nat} {w : List Item} {e : Expr}

/-- An operand is lacking, and not of an operator of a tier below `k`. -/
structure Awaits (t : OperatorTable) (k : Nat) (n : Nesting) : Prop where
  lacks : Part.lacksOperand n.inner = true
  admits : ∀ op span, Part.lacking? n.inner = some (op, span) → ∃ j ≥ k, op ∈ t.tier j

theorem Awaits.mono {j : Nat} (h : Awaits t k n) (hj : j ≤ k) : Awaits t j n := by
  refine ⟨h.lacks, fun op span hl => ?_⟩
  obtain ⟨i, hi, hm⟩ := h.admits op span hl
  exact ⟨i, by omega, hm⟩

theorem awaits_operator {op : Operator} {span : Span} (hm : op ∈ t.tier k) :
    Awaits t k (n.push (.operator op span)) := by
  refine ⟨rfl, fun op' span' hl => ?_⟩
  cases hl
  exact ⟨k, Nat.le_refl k, hm⟩

/-! ### Operators that may stand here -/

theorem step_prefix {op : Operator} {span : Span} (hm : op ∈ t.tier k) (hp : op.isPrefix)
    (hn : Awaits t k n) : step t n (.operator op span) = .ok (n.push (.operator op span)) := by
  have ha : n.admitPrefix t op = .ok () := by
    unfold admitPrefix
    split
    · rename_i lacking at' hl
      obtain ⟨j, hj, hl⟩ := hn.admits _ _ hl
      have hb : ¬ t.bindsTighter lacking op = true := by
        rw [OperatorTable.bindsTighter_iff hl hm]
        omega
      rw [if_neg hb]
    · rfl
  simp [step, hp, admitOperand, hn.lacks, ha]

theorem step_infix {op : Operator} {span : Span} (hp : op.isPrefix = false)
    (hl : Part.lacksOperand n.inner = false) :
    step t n (.operator op span) = .ok (n.push (.operator op span)) := by
  simp [step, hp, hl]

theorem step_separator {span : Span} (hl : Part.lacking? n.inner = none) :
    step t n (.separator span) = .ok (n.push (.separator span)) := by
  simp [step, admitEnd, hl]

/-! ### Expressions -/

/-- The state after the parts `ps` of an expression. -/
def after (n : Nesting) (ps : List Part) : Nesting :=
  { n with inner := ps.reverse ++ n.inner }

theorem after_cons (p : Part) (ps : List Part) : n.after (p :: ps) = (n.push p).after ps := by
  simp [after, push]

theorem after_append (ps qs : List Part) : n.after (ps ++ qs) = (n.after ps).after qs := by
  simp [after]

/-- The items are read into parts that make the phrase `x`. The last part is a phrase, and the
`BETWEEN`s among the parts have all their own separators. -/
structure Reads (t : OperatorTable) (c : Category) (n : Nesting) (w : List Item) (ps : List Part)
    (x : Phrase) : Prop where
  run : w.foldlM (step t) n = .ok (n.after ps)
  collapses : Part.Collapses t c ps x
  last : ∃ before y, ps = before ++ [.phrase y]
  paired : ∀ i before, Part.betweenOf? i (ps.reverse ++ before) = Part.betweenOf? i before

namespace Reads

variable {c : Category} {ps qs vs : List Part} {u v : List Item} {x y z : Phrase}
  {op : Operator} {span stop : Span}

theorem lacksOperand (h : Reads t c n w ps x) : Part.lacksOperand (n.after ps).inner = false := by
  obtain ⟨before, y, rfl⟩ := h.last
  simp [after, Part.lacksOperand]

theorem lacking? (h : Reads t c n w ps x) : Part.lacking? (n.after ps).inner = none := by
  obtain ⟨before, y, rfl⟩ := h.last
  simp [after, Part.lacking?]

theorem atom {item : Item} (h : step t n item = .ok (n.push (.phrase x))) :
    Reads t (.level 0) n [item] [.phrase x] x where
  run := foldlM_cons_eq_ok_iff.2 ⟨_, h, rfl⟩
  collapses := rfl
  last := ⟨[], x, rfl⟩
  paired := fun _ _ => rfl

theorem unary (hm : op ∈ t.tier k) (hp : op.isPrefix) (hn : Awaits t k n)
    (h : Reads t (.operand k) (n.push (.operator op span)) w ps x) :
    Reads t (.operand k) n (.operator op span :: w) (.operator op span :: ps)
      (.unary op span x) where
  run := by
    refine foldlM_cons_eq_ok_iff.2 ⟨n.push (.operator op span), ?_, ?_⟩
    · exact step_prefix hm hp hn
    · rw [after_cons]
      exact h.run
  collapses := h.collapses.unary hm hp
  last := by
    obtain ⟨before, y, rfl⟩ := h.last
    exact ⟨_ :: before, y, rfl⟩
  paired := fun i before => by
    have hb : op ≠ .between := by
      rintro rfl
      cases hp
    rw [List.reverse_cons, List.append_assoc, h.paired]
    simp [Part.betweenOf?, hb]

theorem binary (hm : op ∈ t.tier k) (ha : op.arity = .binary)
    (hx : Reads t (.level (k + 1)) n u ps x)
    (hy : Reads t (.operand k) ((n.after ps).push (.operator op span)) w qs y)
    (hz : Part.applyBinary op span x y = .ok z) :
    Reads t (.level (k + 1)) n (u ++ .operator op span :: w) (ps ++ .operator op span :: qs) z where
  run := by
    rw [after_append, after_cons]
    refine foldlM_append_eq_ok_iff.2 ⟨_, hx.run, foldlM_cons_eq_ok_iff.2 ⟨_, ?_, hy.run⟩⟩
    exact step_infix (by simp [Operator.isPrefix, ha]) hx.lacksOperand
  collapses := hx.collapses.binary hm ha hy.collapses hz
  last := by
    obtain ⟨before, y, rfl⟩ := hy.last
    exact ⟨ps ++ .operator op span :: before, y, by simp⟩
  paired := fun i before => by
    have hb : op ≠ .between := by
      rintro rfl
      cases ha
    simp only [List.reverse_append, List.reverse_cons, List.append_assoc]
    rw [hy.paired]
    simp [Part.betweenOf?, hb, hx.paired]

theorem between (hm : .between ∈ t.tier k) (hx : Reads t (.level (k + 1)) n u ps x)
    (hy : Reads t (.operand k) ((n.after ps).push (.operator .between span)) v qs y)
    (hz : Reads t (.operand k)
      ((((n.after ps).push (.operator .between span)).after qs).push (.separator stop)) w vs z) :
    Reads t (.level (k + 1)) n (u ++ .operator .between span :: v ++ .separator stop :: w)
      (ps ++ .operator .between span :: qs ++ .separator stop :: vs)
      (.ternary .between span x y z) where
  run := by
    have h₁ : step t (n.after ps) (.operator .between span) = _ :=
      step_infix (by decide) hx.lacksOperand
    have h₂ : step t _ (.separator stop) = _ := step_separator hy.lacking?
    have h₃ := foldlM_append_eq_ok_iff.2 ⟨_, hx.run, foldlM_cons_eq_ok_iff.2 ⟨_, h₁, hy.run⟩⟩
    have h₄ := foldlM_append_eq_ok_iff.2 ⟨_, h₃, foldlM_cons_eq_ok_iff.2 ⟨_, h₂, hz.run⟩⟩
    rw [after_append, after_append, after_cons, after_cons]
    exact h₄
  collapses := hx.collapses.between hm hy.collapses hz.collapses
  last := by
    obtain ⟨before, y, rfl⟩ := hz.last
    exact ⟨ps ++ .operator .between span :: qs ++ .separator stop :: before, y, by simp⟩
  paired := fun i before => by
    simp only [List.reverse_append, List.reverse_cons, List.append_assoc]
    rw [hz.paired]
    simp only [List.cons_append, List.nil_append, Part.betweenOf?]
    rw [hy.paired]
    simp only [Part.betweenOf?]
    exact hx.paired i before

/-- After its separator, a `BETWEEN` lacks its upper bound. -/
theorem awaits_separator (hm : .between ∈ t.tier k)
    (hy : Reads t c (n.push (.operator .between span)) v qs y) :
    Awaits t k (((n.push (.operator .between span)).after qs).push (.separator stop)) := by
  refine ⟨rfl, fun op at' hl => ?_⟩
  have hl : Part.betweenOf? 0 (qs.reverse ++ .operator .between span :: n.inner) =
      some (op, at') := hl
  rw [hy.paired] at hl
  cases hl
  exact ⟨k, Nat.le_refl k, hm⟩

theorem group (h : Reads t (.level t.tiers.length) { outer := (span, n.inner) :: n.outer } w ps x)
    (hn : Part.lacksOperand n.inner = true) :
    Reads t (.level 0) n (.opening span :: w ++ [.closing stop]) [.phrase x] x where
  run := by
    refine foldlM_cons_eq_ok_iff.2 ⟨{ outer := (span, n.inner) :: n.outer }, ?_, ?_⟩
    · simp [step, admitOperand, hn]
    · refine foldlM_append_eq_ok_iff.2 ⟨_, h.run, foldlM_cons_eq_ok_iff.2 ⟨_, ?_, rfl⟩⟩
      have hne : ps ≠ [] := by
        obtain ⟨before, y, rfl⟩ := h.last
        simp
      have hr : Part.resolve t ps (span.merge stop) = .ok x := h.collapses.resolve hne
      have hl := h.lacking?
      simp only [after, List.append_nil] at hl
      simp [step, after, admitEnd, hl, hr]
  collapses := rfl
  last := ⟨[], x, rfl⟩
  paired := fun _ _ => rfl

end Reads

/-- What the grammar derives is read wherever an operand of its tiers is lacking. -/
theorem exists_reads {c : Category} (h : Derives t c w e) (n : Nesting)
    (hn : Awaits t c.floor n) :
    ∃ ps x, Reads t c n w ps x ∧ x.LaidOut ∧ x.expr = e := by
  induction h generalizing n with
  | @operand x span =>
    refine ⟨_, .ofOperand x span, .atom ?_, Phrase.laidOut_ofOperand x span, rfl⟩
    simp [step, admitOperand, hn.lacks]
  | @list elements span =>
    refine ⟨_, .ofElements elements span, .atom ?_, Phrase.laidOut_ofElements elements span, rfl⟩
    simp [step, admitOperand, hn.lacks]
  | @empty start stop =>
    refine ⟨[.phrase ⟨.list [], .list [], start.merge stop⟩], _,
      ⟨?_, rfl, ⟨[], _, rfl⟩, ?_⟩, ?_, rfl⟩
    · simp [step, admitOperand, hn.lacks, after, admitEnd, Part.lacking?, Part.resolve]
    · exact fun _ _ => rfl
    · simp [Phrase.LaidOut, Expr.layout, Expr.layoutAll]
  | @group start stop w e _ ih =>
    obtain ⟨ps, x, hr, hl, he⟩ := ih { outer := (start, n.inner) :: n.outer }
      ⟨rfl, fun op span h => by cases h⟩
    exact ⟨_, x, hr.group hn.lacks, hl, he⟩
  | bare _ ih =>
    obtain ⟨ps, x, hr, hl, he⟩ := ih n hn
    exact ⟨ps, x, { hr with collapses := hr.collapses.bare }, hl, he⟩
  | unary hm hp _ ih =>
    obtain ⟨ps, x, hr, hl, rfl⟩ := ih _ (awaits_operator hm)
    exact ⟨_, _, hr.unary hm hp hn, hl.unary, rfl⟩
  | single _ ih =>
    obtain ⟨ps, x, hr, hl, he⟩ := ih n (hn.mono (Nat.le_succ _))
    exact ⟨ps, x, { hr with collapses := hr.collapses.single }, hl, he⟩
  | binary hm ha _ _ hb ihx ihy =>
    obtain ⟨ps, x, hx, hxl, rfl⟩ := ihx n hn
    obtain ⟨qs, y, hy, hyl, rfl⟩ := ihy _ (awaits_operator hm)
    obtain ⟨z, hz, hzl, rfl⟩ := Phrase.exists_applyBinary hxl hyl hb
    exact ⟨_, z, hx.binary hm ha hy hz, hzl, rfl⟩
  | between hm _ _ _ ihx ihy ihz =>
    obtain ⟨ps, x, hx, hxl, rfl⟩ := ihx n hn
    obtain ⟨qs, y, hy, hyl, rfl⟩ := ihy _ (awaits_operator hm)
    obtain ⟨vs, z, hz, hzl, rfl⟩ := ihz _ (hy.awaits_separator hm)
    exact ⟨_, _, hx.between hm hy hz, hxl.ternary hyl hzl, rfl⟩

end Nesting

/-! ## Clauses -/

namespace Phrase

variable {t : OperatorTable} {items : List Item} {e : Expr}

theorem exists_ofItems (h : IsClause t items e) :
    ∃ x, ofItems t items = .ok x ∧ x.LaidOut ∧ x.expr = e := by
  have hn : Nesting.Awaits t 0 {} := ⟨rfl, fun op span hl => by cases hl⟩
  obtain ⟨ps, x, hr, hl, he⟩ := Nesting.exists_reads h.2 {} hn
  obtain rfl : ps = [.phrase x] := hr.collapses
  refine ⟨x, bind_eq_ok_iff.2 ⟨_, hr.run, ?_⟩, hl, he⟩
  exact Part.resolve_phrase x {}

theorem isClause_unique {e' : Expr} (h : IsClause t items e) (h' : IsClause t items e') :
    e = e' := by
  obtain ⟨x, hx, -, rfl⟩ := exists_ofItems h
  obtain ⟨y, hy, -, rfl⟩ := exists_ofItems h'
  cases hx.symm.trans hy
  rfl

/-- The items of tokens are read into a phrase exactly if the grammar derives them, and then the
phrase has the tree that they denote. No items denote two trees. -/
theorem exists_ofItems_iff_isClause {length : Nat} {tokens : List Token}
    (h : Item.ofTokens t length tokens = .ok items) :
    (∀ e, (∃ x, ofItems t items = .ok x ∧ x.expr = e) ↔ IsClause t items e) ∧
      ∀ e e', IsClause t items e → IsClause t items e' → e = e' := by
  refine ⟨fun e => ⟨?_, fun hc => ?_⟩, fun e e' => isClause_unique⟩
  · rintro ⟨x, hx, rfl⟩
    obtain ⟨body, rfl, hb, -⟩ := Item.balanced_of_ofTokens h
    exact (isClause_of_ofItems hb hx).1
  · obtain ⟨x, hx, -, he⟩ := exists_ofItems hc
    exact ⟨x, hx, he⟩

/-- The clause `NOT a between -1 and b`: the prefix minus binds its operand first, the `and` is the
separator, and `NOT` binds tighter than `between`. -/
theorem isClause_not_between :
    IsClause .standard
      [.opening ⟨0, 0⟩, .operator .not ⟨0, 3⟩, .operand (.identifier "a") ⟨4, 5⟩,
        .operator .between ⟨6, 13⟩, .operator .negate ⟨14, 15⟩,
        .operand (.literal (.integer 1)) ⟨15, 16⟩, .separator ⟨17, 20⟩,
        .operand (.identifier "b") ⟨21, 22⟩, .closing ⟨22, 22⟩]
      (.operation .between
        [.operation .not [.operand (.identifier "a")],
          .operation .negate [.operand (.literal (.integer 1))], .operand (.identifier "b")]) := by
  have h : Item.ofTokens .standard 22
      [⟨.identifier "NOT", ⟨0, 3⟩⟩, ⟨.identifier "a", ⟨4, 5⟩⟩, ⟨.identifier "between", ⟨6, 13⟩⟩,
        ⟨.operator "-", ⟨14, 15⟩⟩, ⟨.literal (.integer 1) none, ⟨15, 16⟩⟩,
        ⟨.identifier "and", ⟨17, 20⟩⟩, ⟨.identifier "b", ⟨21, 22⟩⟩] = .ok _ := rfl
  exact ((exists_ofItems_iff_isClause h).1 _).1 ⟨_, rfl, rfl⟩

end Phrase

end WhereClause
