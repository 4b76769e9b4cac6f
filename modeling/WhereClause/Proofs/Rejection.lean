import WhereClause.Proofs.Strategies
import WhereClause.Proofs.Value.Refusal

/-!
# Clauses that are refused

Reading a clause into a tree and evaluating it on the way refuse the same clauses, but not always
for the same reason: a folding applies operators in the middle of a group, and reading only when the
group closes. Apart from that both refuse the first item that cannot stand where it does. So an
error that a folding finds on the arrival of an item is the error of reading; and if reading finds
one only in applying operators, then so does every folding.

What the stacks hold determines how far reading has come: items that are on the stacks are read into
parts after which the same operator lacks an operand.
-/

namespace WhereClause

open Grammar

variable {t : OperatorTable} {σ : Type} {f : Evaluator σ} {values₀ values : List Stacked}
  {start : Span} {waiting₀ waiting : List Waiting} {w items : List Item} {state state' : Stacks}
  {n : Nesting} {s s' : σ} {err : SyntaxError}

/-! ## Stacks and parts -/

namespace Stacks

/-- The operator on top, which lacks an operand. -/
def lacking? : List Waiting → Option (Operator × Span)
  | .operator op span _ :: _ => some (op, span)
  | _ => none

/-- An operand is lacking after the parts, and to the operator that waits for it on the stack. -/
def Mirrored (waiting : List Waiting) (n : Nesting) : Prop :=
  Part.lacksOperand n.inner = true ∧ Part.lacking? n.inner = lacking? waiting

theorem Mirrored.awaits {k : Nat} (h : Mirrored waiting n) (hw : Above t k waiting) :
    Nesting.Awaits t k n := by
  refine ⟨h.1, fun op span hl => ?_⟩
  rw [h.2] at hl
  unfold lacking? at hl
  split at hl
  · cases hl
    exact hw
  · cases hl

/-- The items of a group that are on the stacks are read into parts. -/
theorem Context.exists_foldlM (h : Context t values₀ start waiting₀ items values waiting)
    (outer : List (Span × List Part)) :
    ∃ n : Nesting, items.foldlM (Nesting.step t) { outer } = .ok n ∧ n.outer = outer ∧
      Mirrored waiting n := by
  induction h with
  | start => exact ⟨_, rfl, rfl, rfl, rfl⟩
  | @prefixed op span _ _ _ _ hm hp hw _ ih =>
    obtain ⟨n, hr, ho, hmir⟩ := ih
    have hstep : Nesting.step t n (.operator op span) = _ :=
      Nesting.step_prefix hm hp (hmir.awaits hw)
    exact ⟨n.push (.operator op span), foldlM_concat_eq_ok_iff.2 ⟨n, hr, hstep⟩, ho, rfl, rfl⟩
  | @infixed op span _ _ _ _ _ _ _ hm hp hw hd _ _ ih =>
    obtain ⟨n, hr, ho, hmir⟩ := ih
    obtain ⟨ps, x, hx, -, -⟩ := Nesting.exists_reads hd n (hmir.awaits hw)
    have hleft := foldlM_append_eq_ok_iff.2 ⟨n, hr, hx.run⟩
    have hstep : Nesting.step t (n.after ps) (.operator op span) = _ :=
      Nesting.step_infix (by simpa using hp) hx.lacksOperand
    exact ⟨(n.after ps).push (.operator op span), foldlM_concat_eq_ok_iff.2 ⟨_, hleft, hstep⟩, ho,
      rfl, rfl⟩
  | @separated span stop _ _ _ _ _ _ _ _ _ _ hm hw hd hlow _ ih =>
    obtain ⟨n, hr, ho, hmir⟩ := ih
    obtain ⟨ps, x, hx, -, -⟩ := Nesting.exists_reads hd n (hmir.awaits hw)
    have hleft := foldlM_append_eq_ok_iff.2 ⟨n, hr, hx.run⟩
    have hop : Nesting.step t (n.after ps) (.operator .between span) = _ :=
      Nesting.step_infix (by decide) hx.lacksOperand
    obtain ⟨qs, y, hy, -, -⟩ := Nesting.exists_reads hlow _ (Nesting.awaits_operator hm)
    have hbound := foldlM_append_eq_ok_iff.2
      ⟨_, foldlM_concat_eq_ok_iff.2 ⟨_, hleft, hop⟩, hy.run⟩
    have hstep : Nesting.step t _ (.separator stop) = _ := Nesting.step_separator hy.lacking?
    -- the `BETWEEN`s of the lower bound have separators of their own
    exact ⟨_, foldlM_concat_eq_ok_iff.2 ⟨_, hbound, hstep⟩, ho, rfl, hy.paired 0 _⟩

/-- After a complete expression reading has come to the end of an operand. -/
theorem Complete.exists_foldlM {k : Nat}
    (h : Complete t values₀ start waiting₀ k items values waiting)
    (outer : List (Span × List Part)) :
    ∃ n : Nesting, items.foldlM (Nesting.step t) { outer } = .ok n ∧ n.outer = outer ∧
      Part.lacksOperand n.inner = false ∧ Part.lacking? n.inner = none := by
  obtain ⟨hctx, -, hfits, -⟩ := h
  obtain ⟨n, hr, ho, hmir⟩ := hctx.exists_foldlM outer
  obtain ⟨c, hd, hn⟩ : ∃ c, Derives t c _ _ ∧ Nesting.Awaits t c.floor n := by
    unfold Fits at hfits
    split at hfits
    · obtain ⟨j, hj, hd⟩ := hfits
      exact ⟨_, hd, hmir.awaits (above_cons hj _ _)⟩
    · rename_i hw
      refine ⟨_, hfits, hmir.awaits ?_⟩
      unfold Above
      split
      · exact absurd rfl (hw _ _ _ _)
      · trivial
  obtain ⟨ps, x, hx, -, -⟩ := Nesting.exists_reads hd n hn
  exact ⟨n.after ps, foldlM_append_eq_ok_iff.2 ⟨n, hr, hx.run⟩, ho, hx.lacksOperand, hx.lacking?⟩

/-! ## What may follow -/

/-- Reading admits what the stacks admit, and refuses the rest with the same errors. -/
structure Agrees (state : Stacks) (n : Nesting) : Prop where
  lacks : Part.lacksOperand n.inner = state.lacksOperand
  operand : ∀ span, n.admitOperand span = state.admitOperand span
  ends : n.admitEnd = state.admitEnd
  prefixes : state.lacksOperand = true → ∀ t op, n.admitPrefix t op = state.admitPrefix t op

theorem Mirrored.agrees (h : Mirrored waiting n) : Agrees ⟨values, waiting, true⟩ n where
  lacks := h.1
  operand span := by
    rw [Nesting.admitOperand, h.1]
    rfl
  ends := by
    rw [Nesting.admitEnd, h.2]
    rcases waiting with - | ⟨_ | _, _⟩ <;> rfl
  prefixes _ t op := by
    rw [Nesting.admitPrefix, h.2]
    rcases waiting with - | ⟨_ | _, _⟩ <;> rfl

theorem Read.exists_foldlM (h : Read t values₀ start waiting₀ items state)
    (outer : List (Span × List Part)) :
    ∃ n : Nesting, items.foldlM (Nesting.step t) { outer } = .ok n ∧ n.outer = outer ∧
      Agrees state n := by
  cases h with
  | lacking hctx =>
    obtain ⟨n, hr, ho, hmir⟩ := hctx.exists_foldlM outer
    exact ⟨n, hr, ho, hmir.agrees⟩
  | complete hcomp =>
    obtain ⟨n, hr, ho, hlack, hnone⟩ := hcomp.exists_foldlM outer
    refine ⟨n, hr, ho, hlack, fun span => ?_, ?_, by simp⟩
    · rw [Nesting.admitOperand, hlack]
      rfl
    · rw [Nesting.admitEnd, hnone, admitEnd_of_complete]

/-! ## One item -/

/-- An item that may not come is refused by reading. -/
theorem Agrees.step_eq_error_of_arrive {item : Item} (h : Agrees state n)
    (ho : ∀ stop, item = .closing stop → n.outer ≠ [])
    (ha : state.arrive t item = .error err) : Nesting.step t n item = .error err := by
  cases item with
  | opening span | operand x span | list elements span =>
    rcases bind_eq_error_iff.1 ha with ha | ⟨_, -, ha⟩
    · rw [Nesting.step, h.operand, ha]
      rfl
    · cases ha
  | separator span =>
    rcases bind_eq_error_iff.1 ha with ha | ⟨_, -, ha⟩
    · rw [Nesting.step, h.ends, ha]
      rfl
    · cases ha
  | closing span =>
    obtain ⟨⟨start, before⟩, outer, houter⟩ := List.exists_cons_of_ne_nil (ho span rfl)
    unfold Nesting.step
    rw [houter]
    dsimp only
    rw [h.ends, admitEnd_of_closeGroup ha]
    rfl
  | operator op span =>
    rw [arrive] at ha
    rw [Nesting.step]
    split at ha
    · rename_i hp
      rw [if_pos hp, h.operand]
      rcases bind_eq_error_iff.1 ha with ha | ⟨_, hok, ha⟩
      · rw [ha]
        rfl
      · have hlack : state.lacksOperand = true := by
          by_contra hlack
          rw [admitOperand, if_neg hlack] at hok
          cases hok
        rw [hok, ok_bind, h.prefixes hlack]
        rcases bind_eq_error_iff.1 ha with ha | ⟨_, -, ha⟩
        · rw [ha]
          rfl
        · cases ha
    · rename_i hp
      split at ha
      · rename_i hlack
        cases ha
        rw [if_neg hp, h.lacks, if_pos hlack]
      · cases ha

/-- An item that is refused on its arrival is refused by reading. -/
theorem Agrees.step_eq_error {item : Item} (h : Agrees state n)
    (ho : ∀ stop, item = .closing stop → n.outer ≠ [])
    (hread : Read t values₀ start waiting₀ items state)
    (hf : Fails (step f t state item) s err s') (he : err.isLate = false) :
    Nesting.step t n item = .error err := by
  rcases fails_step_iff.1 hf with ⟨ha, -⟩ | ⟨values, ha, hf⟩
  · exact h.step_eq_error_of_arrive ho ha
  · rw [hread.isLate_of_fails ha hf] at he
    cases he

/-! ## Groups -/

theorem Agrees.opening_eq_error {span : Span} (h : Agrees state n)
    (hf : Fails (step f t state (.opening span)) s err s') :
    Nesting.step t n (.opening span) = .error err := by
  rcases fails_check_iff.1 hf with ⟨ha, -⟩ | ⟨_, _, hf⟩
  · rw [Nesting.step, h.operand, ha]
    rfl
  · exact absurd hf not_fails_pure

/-- A group that is refused at its beginning, in the middle or at its end is refused by reading, if
its items are. -/
theorem Agrees.group_eq_error {stop : Span} (h : Agrees state n)
    (hw : ∀ {s : σ}, Fails (w.foldlM (step f t)
      ⟨state.values, .opening start state.values.length :: state.waiting, true⟩) s err s' →
        ∀ outer, w.foldlM (Nesting.step t) { outer } = .error err)
    (hread : ∀ {state' : Stacks} {s s' : σ}, Gives (w.foldlM (step f t)
      ⟨state.values, .opening start state.values.length :: state.waiting, true⟩) s state' s' →
        Read t state.values start state.waiting w state')
    (hf : Fails ((Item.opening start :: w ++ [Item.closing stop]).foldlM (step f t) state) s
      err s') (he : err.isLate = false) :
    (Item.opening start :: w ++ [Item.closing stop]).foldlM (Nesting.step t) n = .error err := by
  rw [List.cons_append] at hf ⊢
  rcases fails_foldlM_cons_iff.1 hf with hf | ⟨state₁, s₁, h₁, hf⟩
  · exact foldlM_cons_eq_error (h.opening_eq_error hf) _
  · obtain ⟨hlack, -, rfl⟩ := of_gives_opening h₁
    have hopen : Nesting.step t n (.opening start) =
        .ok { outer := (start, n.inner) :: n.outer } := by
      rw [Nesting.step, h.operand, admitOperand, if_pos hlack]
      rfl
    rw [List.foldlM_cons, hopen, ok_bind]
    rcases fails_foldlM_append_iff.1 hf with hf | ⟨state₂, s₂, h₂, hf⟩
    · exact foldlM_append_eq_error (hw hf _) _
    · obtain ⟨n₂, hn₂, ho, hagree⟩ := (hread h₂).exists_foldlM ((start, n.inner) :: n.outer)
      refine foldlM_append_eq_error_of_ok hn₂ (foldlM_cons_eq_error ?_ _)
      rcases fails_foldlM_cons_iff.1 hf with hf | ⟨_, _, _, hf⟩
      · exact hagree.step_eq_error (fun _ _ => by simp [ho]) (hread h₂) hf he
      · exact absurd hf not_fails_pure

/-- Items that are refused on arrival, in a group or in one inside of it, are refused by reading. -/
theorem foldlM_eq_error (hb : Item.Balanced w) (hk : ∀ item ∈ w, item.Known t)
    (h : Read t values₀ start waiting₀ items state)
    (hf : Fails (w.foldlM (step f t) state) s err s') (he : err.isLate = false)
    (outer : List (Span × List Part)) :
    (items ++ w).foldlM (Nesting.step t) { outer } = .error err := by
  induction hb generalizing values₀ start waiting₀ items state s outer with
  | nil => exact absurd hf not_fails_pure
  | leaf hl _ ih =>
    obtain ⟨hi, hk⟩ := List.forall_mem_cons.1 hk
    rcases fails_foldlM_cons_iff.1 hf with hf | ⟨state₁, s₁, h₁, hf⟩
    · obtain ⟨n, hn, -, hagree⟩ := h.exists_foldlM outer
      refine foldlM_append_eq_error_of_ok hn (foldlM_cons_eq_error ?_ _)
      refine hagree.step_eq_error ?_ h hf he
      rintro stop rfl
      cases hl
    · rw [List.append_cons]
      exact ih hk (read_step h hl hi h₁) hf outer
  | @group open' close' u w hu _ ihu ihw =>
    rw [List.append_cons] at hf hk ⊢
    have hku : ∀ item ∈ u, item.Known t := fun item hm => hk item (by simp [hm])
    have hkw : ∀ item ∈ w, item.Known t := fun item hm => hk item (by simp [hm])
    rcases fails_foldlM_append_iff.1 hf with hf | ⟨state₁, s₁, h₁, hf⟩
    · obtain ⟨n, hn, -, hagree⟩ := h.exists_foldlM outer
      refine foldlM_append_eq_error_of_ok hn (foldlM_append_eq_error ?_ _)
      exact hagree.group_eq_error (fun hg => ihu hku (.lacking .start) hg)
        (fun hg => read_foldlM hu hku (.lacking .start) hg) hf he
    · obtain ⟨hlack, x, e, rfl, hxl, hd⟩ :=
        read_group (fun hg => read_foldlM hu hku (.lacking .start) hg) h₁ rfl rfl
      rw [← List.append_assoc]
      exact ihw hkw (h.atom hlack hd hxl) hf outer

end Stacks

/-! ## Clauses -/

/-- Items that a folding refuses on the arrival of one of them are refused by reading. -/
theorem Phrase.ofItems_eq_error {length : Nat} {tokens : List Token}
    (h : Item.ofTokens t length tokens = .ok items)
    (hf : Fails (Value.ofItems f t items) s err s') (he : err.isLate = false) :
    Phrase.ofItems t items = .error err := by
  obtain ⟨body, rfl, hb, hk⟩ := Item.balanced_of_ofTokens h
  have hread {values : List Stacked} {waiting : List Waiting} {start : Span} {state' : Stacks}
      {s s' : σ} (hg : Gives (body.foldlM (Stacks.step f t)
        ⟨values, .opening start values.length :: waiting, true⟩) s state' s') :
      Stacks.Read t values start waiting body state' :=
    Stacks.read_foldlM hb hk (.lacking .start) hg
  rcases fails_bind_iff.1 hf with hf | ⟨state, s₁, hs, hf⟩
  · have hempty : Stacks.Mirrored [] {} := ⟨rfl, rfl⟩
    have hstart : Stacks.Agrees {} {} := hempty.agrees
    have hitems := hstart.group_eq_error
      (fun hg => Stacks.foldlM_eq_error hb hk (.lacking .start) hg he) hread hf he
    rw [List.nil_append] at hitems
    rw [Phrase.ofItems, hitems]
    rfl
  · -- after a whole group there is one value, so the end is not refused
    obtain ⟨-, x, e, rfl, -⟩ := Stacks.read_group hread hs rfl rfl
    obtain ⟨hfinish, -⟩ := fails_liftExcept_iff.1 hf
    cases hfinish

namespace Parser

variable {p : Parser} {clause : String}

theorem fails_fold_iff : Fails (p.fold f clause) s err s' ↔
    p.items clause = .error err ∧ s = s' ∨
      ∃ items, p.items clause = .ok items ∧ Fails (Value.ofItems f p.table items) s err s' := by
  unfold fold
  rw [fails_check_iff]

theorem parse_eq_error_iff : p.parse clause = .error err ↔
    p.items clause = .error err ∨
      ∃ items, p.items clause = .ok items ∧ Phrase.ofItems p.table items = .error err := by
  unfold parse
  rw [bind_eq_error_iff]
  refine or_congr_right (exists_congr fun items => and_congr_right fun _ => ?_)
  rw [bind_eq_error_iff]
  simp

theorem parse_eq_error_of_fails (hf : Fails (p.fold f clause) s err s')
    (he : err.isLate = false) : p.parse clause = .error err := by
  rcases fails_fold_iff.1 hf with ⟨hi, -⟩ | ⟨items, hi, hf⟩
  · exact parse_eq_error_iff.2 (.inl hi)
  · exact parse_eq_error_iff.2 (.inr ⟨items, hi, Phrase.ofItems_eq_error hi hf he⟩)

/-- A clause that is refused on the arrival of an item while it is evaluated is refused with the
same error when it is read; and if reading refuses it for an operator that does not fit its
operands, then so does evaluating it, with whatever evaluator. -/
theorem parse_error_of_fold (p : Parser) (clause : String) (f : Evaluator σ) (s : σ) :
    (∀ err s', (p.fold f clause).run.run s = (.error err, s') → err.isLate = false →
        p.parse clause = .error err) ∧
      ∀ err, p.parse clause = .error err → err.isLate = true →
        ∃ err' s', (p.fold f clause).run.run s = (.error err', s') ∧ err'.isLate = true := by
  refine ⟨fun err s' hf he => parse_eq_error_of_fails hf he, fun err hp he => ?_⟩
  rcases exists_gives_or_fails (p.fold f clause) s with ⟨v, s', hv⟩ | ⟨err', s', hf⟩
  · -- what is evaluated is read
    obtain ⟨items, hi, hv⟩ := gives_fold_iff.1 hv
    obtain ⟨x, hx⟩ := (Value.exists_gives_iff hi s).2 ⟨v, s', hv⟩
    rw [parse_eq_ok_iff.2 ⟨items, x, hi, hx, rfl⟩] at hp
    cases hp
  · refine ⟨err', s', hf, ?_⟩
    by_contra hn
    have hn : err'.isLate = false := by simpa using hn
    rw [parse_eq_error_of_fails hf hn] at hp
    cases hp
    rw [hn] at he
    cases he

/-- In the first clause the `OR` lacks an operand, and the `IN` a list; in the second one, the
`BETWEEN` has no `AND`, and the `IN` no list. -/
theorem parse_error_or_and_between :
    (∃ s', (standard.fold numbered "1 + 2 - (a OR) IN 3").run.run 0 =
        (.error (.missingOperand .or ⟨11, 13⟩), s') ∧
      standard.parse "1 + 2 - (a OR) IN 3" = .error (.missingOperand .or ⟨11, 13⟩)) ∧
    ∃ err, standard.parse "b BETWEEN 2 = a IN 1" = .error err ∧ err.isLate = true ∧
      ∃ err' s', (standard.fold numbered "b BETWEEN 2 = a IN 1").run.run 0 = (.error err', s') ∧
        err'.isLate = true := by
  constructor
  · obtain ⟨err, hf, he⟩ : ∃ err, ((standard.fold numbered "1 + 2 - (a OR) IN 3").run.run 0).1 =
        .error err ∧ decide (err = .missingOperand .or ⟨11, 13⟩) = true :=
      exists_eq_error (by decide +kernel)
    obtain rfl := of_decide_eq_true he
    exact ⟨_, Prod.ext hf rfl, (parse_error_of_fold _ _ numbered 0).1 _ _ (Prod.ext hf rfl) rfl⟩
  · obtain ⟨err, hp, he⟩ : ∃ err, standard.parse "b BETWEEN 2 = a IN 1" = .error err ∧
        err.isLate = true := exists_eq_error (by decide +kernel)
    exact ⟨err, hp, he, (parse_error_of_fold _ _ numbered 0).2 err hp he⟩

end Parser

end WhereClause
