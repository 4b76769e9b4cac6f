import WhereClause.Proofs.Grammar
import WhereClause.Proofs.Value.Phases

/-!
# What is folded is derived

Items that are folded without an error are derived by the grammar. The stacks hold what has been
read of the innermost group: a waiting operator stands for the items up to it, with the operands
before it already derived. If an operand has just ended, then the value on top belongs to derived
items that may be an operand of the operator on top. Applying that operator keeps this, since the
operators below it do not bind tighter.
-/

namespace WhereClause

open Grammar

variable {t : OperatorTable} {σ : Type} {f : Evaluator σ}

namespace Stacks

/-! ## Stacks of a group -/

/-- The items so far of a group, at whose beginning `values₀` and `waiting₀` were on the stacks. An
operand is lacking. -/
inductive Context (t : OperatorTable) (values₀ : List Stacked) (start : Span)
    (waiting₀ : List Waiting) : List Item → List Stacked → List Waiting → Prop
  | start : Context t values₀ start waiting₀ [] values₀ (.opening start values₀.length :: waiting₀)
  | prefixed {op : Operator} {span : Span} {k : Nat} {u : List Item} {values : List Stacked}
      {waiting : List Waiting} : op ∈ t.tier k → op.isPrefix → Above t k waiting →
    Context t values₀ start waiting₀ u values waiting →
      Context t values₀ start waiting₀ (u ++ [.operator op span]) values
        (.operator op span false :: waiting)
  | infixed {op : Operator} {span : Span} {k : Nat} {u w : List Item} {x : Stacked} {e : Expr}
      {values : List Stacked} {waiting : List Waiting} : op ∈ t.tier k → ¬ op.isPrefix →
    Above t (k + 1) waiting → Derives t (.level (k + 1)) w e → x.isList = e.isList →
    Context t values₀ start waiting₀ u values waiting →
      Context t values₀ start waiting₀ (u ++ w ++ [.operator op span]) (x :: values)
        (.operator op span false :: waiting)
  | separated {span stop : Span} {k : Nat} {u v w : List Item} {x y : Stacked} {e low : Expr}
      {values : List Stacked} {waiting : List Waiting} : .between ∈ t.tier k →
    Above t (k + 1) waiting → Derives t (.level (k + 1)) v e → Derives t (.operand k) w low →
    Context t values₀ start waiting₀ u values waiting →
      Context t values₀ start waiting₀
        (u ++ v ++ [.operator .between span] ++ w ++ [.separator stop]) (y :: x :: values)
        (.operator .between span true :: waiting)

/-- The items may be the last operand of what waits on top. -/
def Fits (t : OperatorTable) (w : List Item) (e : Expr) : List Waiting → Prop
  | .operator op _ _ :: _ => ∃ j, op ∈ t.tier j ∧ Derives t (.operand j) w e
  | _ => Derives t (.level t.tiers.length) w e

/-- The items so far of a group, if an expression of `level n` ends with them. -/
inductive Complete (t : OperatorTable) (values₀ : List Stacked) (start : Span)
    (waiting₀ : List Waiting) (n : Nat) : List Item → List Stacked → List Waiting → Prop
  | intro {u w : List Item} {e : Expr} {x : Stacked} {values : List Stacked}
      {waiting : List Waiting} : Context t values₀ start waiting₀ u values waiting →
    Derives t (.level n) w e → Fits t w e waiting → x.isList = e.isList →
      Complete t values₀ start waiting₀ n (u ++ w) (x :: values) waiting

variable {values₀ values values' : List Stacked} {start : Span}
  {waiting₀ waiting : List Waiting} {w items : List Item} {e : Expr} {x : Stacked} {n k : Nat}
  {s s' : σ}

theorem fits_of_level (h : Derives t (.level k) w e) (hk : k ≤ t.tiers.length)
    (hw : Above t k waiting) : Fits t w e waiting := by
  unfold Fits
  split
  · obtain ⟨j, hj, hm⟩ := hw
    exact ⟨j, hm, h.operand_of_level hj⟩
  · exact h.level_mono hk

theorem fits_of_operand (h : Derives t (.operand k) w e) (hk : k < t.tiers.length)
    (hw : Above t k waiting) : Fits t w e waiting := by
  unfold Fits
  split
  · obtain ⟨j, hj, hm⟩ := hw
    exact ⟨j, hm, h.operand_mono hj⟩
  · exact h.level_of_operand hk

theorem Context.above_zero (h : Context t values₀ start waiting₀ items values waiting) :
    Above t 0 waiting := by
  cases h with
  | start => trivial
  | prefixed hm | infixed hm | separated hm => exact ⟨_, Nat.zero_le _, hm⟩

namespace Complete

theorem mono (h : Complete t values₀ start waiting₀ n items values waiting) {m : Nat}
    (hnm : n ≤ m) : Complete t values₀ start waiting₀ m items values waiting := by
  obtain ⟨hc, hd, hf, hl⟩ := h
  exact .intro hc (hd.level_mono hnm) hf hl

theorem atom (h : Context t values₀ start waiting₀ items values waiting)
    (hd : Derives t (.level 0) w e) (hl : x.isList = e.isList) :
    Complete t values₀ start waiting₀ 0 (items ++ w) (x :: values) waiting :=
  .intro h hd (fits_of_level hd (Nat.zero_le _) h.above_zero) hl

end Complete

/-! ## One application -/

theorem of_gives_apply {op : Operator} {span : Span} {separated : Bool}
    (h : Gives (apply f op span separated values) s values' s') :
    (op = .between → separated) ∧ ∃ y, values' = y :: values.drop op.arity.count ∧
      Gives (combine f op span (values.take op.arity.count).reverse) s y s' := by
  unfold apply at h
  split at h
  · exact absurd h not_gives_throw
  · rename_i hs
    split at h
    · exact absurd h not_gives_throw
    · obtain ⟨y, s'', hy, h⟩ := gives_bind_iff.1 h
      obtain ⟨rfl, rfl⟩ := gives_pure_iff.1 h
      exact ⟨by simpa using hs, y, rfl, hy⟩

theorem of_gives_combine {op : Operator} {span : Span} {operands : List Stacked} {y : Stacked}
    (h : Gives (combine f op span operands) s y s') :
    Stacked.invalidTarget? op operands = none ∧ y.isList = decide (op = .comma) := by
  unfold combine at h
  dsimp only at h
  split at h
  · exact absurd h not_gives_throw
  · rename_i ht
    split at h
    · rename_i hc
      obtain ⟨rfl, -⟩ := gives_pure_iff.1 h
      exact ⟨ht, by simp [hc]⟩
    · rename_i hc
      obtain ⟨v, s'', -, h⟩ := gives_bind_iff.1 h
      obtain ⟨rfl, -⟩ := gives_pure_iff.1 h
      exact ⟨ht, by simp [hc]⟩

theorem exists_binary? {op : Operator} {span : Span} {x y z : Stacked} {d e : Expr}
    (hy : y.isList = e.isList) (h : Gives (combine f op span [x, y]) s z s') :
    ∃ e', Expr.binary? op d e = some e' ∧ z.isList = e'.isList := by
  obtain ⟨ht, hz⟩ := of_gives_combine h
  unfold Expr.binary?
  split
  · have hl : e.isList = true := by simpa [Stacked.invalidTarget?, hy] using ht
    exact ⟨.operation .isIn [d, e], by rw [if_pos hl], hz⟩
  · exact ⟨_, rfl, hz⟩
  · rename_i hi hc
    refine ⟨_, rfl, ?_⟩
    rw [hz, decide_eq_false hc]
    rfl

namespace Complete

theorem apply {op : Operator} {span : Span} {separated : Bool} (hm : op ∈ t.tier k)
    (h : Complete t values₀ start waiting₀ n items values (.operator op span separated :: waiting))
    (ha : Gives (apply f op span separated values) s values' s') :
    Complete t values₀ start waiting₀ (k + 1) items values' waiting := by
  have hk := OperatorTable.lt_of_mem_tier hm
  obtain ⟨hs, y, rfl, hc⟩ := of_gives_apply ha
  obtain ⟨hctx, -, ⟨j, hj, hd⟩, hl⟩ := h
  obtain rfl := OperatorTable.tier_unique hm hj
  cases hctx with
  | prefixed hm' hp hw hu =>
    obtain rfl := OperatorTable.tier_unique hm hm'
    have ha : op.arity = .unary := by simpa [Operator.isPrefix] using hp
    have hd' : Derives t (.operand k) (.operator op span :: _) _ := .unary hm hp hd
    rw [ha] at hc ⊢
    have hne : op ≠ .comma := by
      rintro rfl
      cases hp
    rw [List.append_assoc]
    refine .intro hu (hd'.level_of_operand (Nat.lt_succ_self k)) (fits_of_operand hd' hk hw) ?_
    rw [(of_gives_combine hc).2, decide_eq_false hne]
    rfl
  | infixed hm' hp hw hx hxl hu =>
    obtain rfl := OperatorTable.tier_unique hm hm'
    have hb : op ≠ .between := fun hb => Bool.false_ne_true (hs hb)
    have ha := OperatorTable.arity_eq_binary hm hp hb
    rw [ha] at hc ⊢
    obtain ⟨e', he, hel⟩ := exists_binary? hl hc
    have hd' : Derives t (.level (k + 1)) (_ ++ .operator op span :: _) _ :=
      .binary hm ha hx hd he
    simp only [List.append_assoc]
    exact .intro hu hd' (fits_of_level hd' hk hw) hel
  | @separated _ stop _ _ _ _ _ _ _ _ _ _ hm' hw hx hlow hu =>
    obtain rfl := OperatorTable.tier_unique hm hm'
    have hd' : Derives t (.level (k + 1)) (_ ++ .operator .between span :: _ ++
        .separator stop :: _) _ := .between hm hx hlow hd
    simp only [List.append_assoc, List.cons_append, List.nil_append] at hd' ⊢
    refine .intro hu hd' (fits_of_level hd' hk hw) ?_
    rw [(of_gives_combine hc).2]
    rfl

/-! ## Runs of applications -/

theorem exists_tier {op : Operator} {span : Span} {separated : Bool}
    (h : Complete t values₀ start waiting₀ n items values
      (.operator op span separated :: waiting)) : ∃ j, op ∈ t.tier j := by
  obtain ⟨-, -, ⟨j, hj, -⟩, -⟩ := h
  exact ⟨j, hj⟩

/-- What is left by operators of the first tiers may be an operand of the next one. -/
theorem applyWhile {p : Operator → Bool → Bool} {r : List Stacked × List Waiting} {m : Nat}
    (hp : ∀ {op separated j}, p op separated = true → op ∈ t.tier j → j < m)
    (h : Complete t values₀ start waiting₀ m items values waiting)
    (ha : Gives (applyWhile f p values waiting) s r s') :
    Complete t values₀ start waiting₀ m items r.1 r.2 := by
  induction waiting generalizing values s with
  | nil =>
    obtain ⟨rfl, -⟩ := gives_pure_iff.1 ha
    exact h
  | cons first rest ih =>
    cases first with
    | opening span height =>
      obtain ⟨rfl, -⟩ := gives_pure_iff.1 ha
      exact h
    | operator op span separated =>
      obtain ⟨j, hj⟩ := h.exists_tier
      rw [Stacks.applyWhile] at ha
      split at ha
      · rename_i htakes
        obtain ⟨values₁, s₁, h₁, ha⟩ := gives_bind_iff.1 ha
        exact ih ((h.apply hj h₁).mono (hp htakes hj)) ha
      · obtain ⟨rfl, -⟩ := gives_pure_iff.1 ha
        exact h

/-- Whatever operators are applied, they are of some tier. -/
theorem applyWhile_all {p : Operator → Bool → Bool} {r : List Stacked × List Waiting}
    (h : Complete t values₀ start waiting₀ 0 items values waiting)
    (ha : Gives (Stacks.applyWhile f p values waiting) s r s') :
    Complete t values₀ start waiting₀ t.tiers.length items r.1 r.2 :=
  (h.mono (Nat.zero_le _)).applyWhile (fun _ hj => OperatorTable.lt_of_mem_tier hj) ha

/-- An operator of tier `k` leaves only those on the stack that bind no tighter. -/
theorem above_of_stops {op : Operator} {span : Span} (hm : op ∈ t.tier k) (hp : ¬ op.isPrefix)
    (h : Complete t values₀ start waiting₀ n items values waiting)
    (hstops : Stops (takes t (.operator op span)) waiting) : Above t (k + 1) waiting := by
  unfold Above
  split
  · obtain ⟨j, hj⟩ := h.exists_tier
    refine ⟨j, ?_, hj⟩
    by_contra hlt
    have htight := (OperatorTable.bindsTighterOrEqual_iff hj hm).2 (by omega)
    exact Bool.false_ne_true (hstops.symm.trans ((takes_operator hp).trans htight))
  · trivial

end Complete

/-! ## Reading items -/

/-- The items so far of a group are on the stacks. -/
inductive Read (t : OperatorTable) (values₀ : List Stacked) (start : Span)
    (waiting₀ : List Waiting) : List Item → Stacks → Prop
  | lacking {items : List Item} {values : List Stacked} {waiting : List Waiting} :
    Context t values₀ start waiting₀ items values waiting →
      Read t values₀ start waiting₀ items ⟨values, waiting, true⟩
  | complete {items : List Item} {values : List Stacked} {waiting : List Waiting} :
    Complete t values₀ start waiting₀ 0 items values waiting →
      Read t values₀ start waiting₀ items ⟨values, waiting, false⟩

variable {state state' : Stacks}

theorem Read.atom (h : Read t values₀ start waiting₀ items state)
    (hlack : state.lacksOperand = true) (hd : Derives t (.level 0) w e)
    (hl : x.isList = e.isList) :
    Read t values₀ start waiting₀ (items ++ w) ⟨x :: state.values, state.waiting, false⟩ := by
  cases h with
  | lacking hc => exact .complete (.atom hc hd hl)
  | complete hc => cases hlack

/-- A separator that is read belongs to a `BETWEEN` of the group. -/
theorem Complete.settle_separator {stop : Span}
    (h : Complete t values₀ start waiting₀ n items values waiting)
    (hstops : Stops (takes t (.separator stop)) waiting)
    (hs : settle values waiting (.separator stop) = .ok state') :
    Read t values₀ start waiting₀ (items ++ [.separator stop]) state' := by
  match waiting with
  | [] | .opening _ _ :: _ => cases hs
  | .operator op span separated :: rest =>
    obtain ⟨rfl, rfl⟩ := between_of_stops hstops
    cases hs
    obtain ⟨hctx, -, ⟨i, hi, hd⟩, hl⟩ := h
    cases hctx with
    | prefixed _ hp => cases hp
    | infixed hm hp hw hx hxl hu =>
      obtain rfl := OperatorTable.tier_unique hm hi
      exact .lacking (.separated hm hw hx hd hu)

/-- At its end, the items of a group are derived. -/
theorem Complete.settle_closing {stop : Span}
    (h : Complete t values₀ start waiting₀ n items values waiting)
    (hstops : Stops (takes t (.closing stop)) waiting)
    (hs : settle values waiting (.closing stop) = .ok state') :
    ∃ x e, state' = ⟨x :: values₀, waiting₀, false⟩ ∧ x.isList = e.isList ∧
      Derives t (.level t.tiers.length) items e := by
  match waiting with
  | [] => cases hs
  | .operator _ _ _ :: _ => cases hstops
  | .opening span height :: rest =>
    cases hs
    obtain ⟨hctx, -, hd, hl⟩ := h
    cases hctx with
    | start => exact ⟨_, _, rfl, hl, hd⟩

theorem context_of_admitOperand {span : Span} {u : Unit}
    (h : Read t values₀ start waiting₀ items state)
    (ha : Gives (liftM (state.admitOperand span) : Folding σ Unit) s u s') :
    s = s' ∧ state.lacksOperand = true ∧
      Context t values₀ start waiting₀ items state.values state.waiting := by
  obtain ⟨ha, rfl⟩ := gives_liftExcept_iff.1 ha
  cases h with
  | lacking hc => exact ⟨rfl, rfl, hc⟩
  | complete hc => cases ha

/-- An operand may end only where it is complete. -/
theorem complete_of_admitEnd (h : Read t values₀ start waiting₀ items state)
    (ha : state.admitEnd = .ok ()) :
    Complete t values₀ start waiting₀ 0 items state.values state.waiting ∨
      items = [] ∧ state = ⟨values₀, .opening start values₀.length :: waiting₀, true⟩ := by
  cases h with
  | lacking hc =>
    cases hc with
    | start => exact .inr ⟨rfl, rfl⟩
    | prefixed | infixed | separated => cases ha
  | complete hc => exact .inl hc

theorem above_of_admitPrefix {op : Operator} (hm : op ∈ t.tier k)
    (hc : Context t values₀ start waiting₀ items state.values state.waiting)
    (h : state.admitPrefix t op = .ok ()) : Above t k state.waiting := by
  have hz := hc.above_zero
  unfold Above at hz ⊢
  split
  · rename_i lacking span _ _ hw
    rw [hw] at hz
    obtain ⟨j, -, hj⟩ := hz
    refine ⟨j, ?_, hj⟩
    by_contra hlt
    rw [admitPrefix, hw] at h
    dsimp only at h
    rw [if_pos ((OperatorTable.bindsTighter_iff hj hm).2 (by omega))] at h
    cases h
  · trivial

theorem read_step {item : Item} (h : Read t values₀ start waiting₀ items state)
    (hl : item.isLeaf) (hk : item.Known t) (hs : Gives (step f t state item) s state' s') :
    Read t values₀ start waiting₀ (items ++ [item]) state' := by
  cases item with
  | opening | closing => cases hl
  | operand x span =>
    obtain ⟨u, s₁, ha, hs⟩ := gives_bind_iff.1 hs
    obtain ⟨rfl, -, hc⟩ := context_of_admitOperand h ha
    obtain ⟨rfl, -⟩ := gives_pure_iff.1 hs
    exact .complete (.atom hc .operand rfl)
  | list elements span =>
    obtain ⟨u, s₁, ha, hs⟩ := gives_bind_iff.1 hs
    obtain ⟨rfl, -, hc⟩ := context_of_admitOperand h ha
    obtain ⟨rfl, -⟩ := gives_pure_iff.1 hs
    exact .complete (.atom hc .list rfl)
  | separator span =>
    obtain ⟨values', r, ha, hg, hsettle⟩ := gives_step_iff.1 hs
    obtain ⟨u, hend, ha⟩ := bind_eq_ok_iff.1 ha
    cases ha
    rcases complete_of_admitEnd h hend with hc | ⟨-, rfl⟩
    · exact (hc.applyWhile_all hg).settle_separator (stops_of_gives hg) hsettle
    · obtain ⟨rfl, -⟩ := gives_pure_iff.1 hg
      cases hsettle
  | operator op span =>
    obtain ⟨k, hm⟩ := OperatorTable.mem_tiers_iff_exists_tier.1 hk
    by_cases hp : op.isPrefix = true
    · rw [step, if_pos hp] at hs
      obtain ⟨u, s₁, ha, hs⟩ := gives_bind_iff.1 hs
      obtain ⟨rfl, hlack, hc⟩ := context_of_admitOperand h ha
      obtain ⟨v, s₁, hv, hs⟩ := gives_bind_iff.1 hs
      obtain ⟨hpre, rfl⟩ := gives_liftExcept_iff.1 hv
      obtain ⟨rfl, -⟩ := gives_pure_iff.1 hs
      rw [hlack]
      exact .lacking (.prefixed hm hp (above_of_admitPrefix hm hc hpre) hc)
    · obtain ⟨_, ⟨values', waiting'⟩, ha, hg, hsettle⟩ := gives_step_iff.1 hs
      rw [arrive, if_neg hp] at ha
      cases h with
      | lacking hc => cases ha
      | complete hc =>
        cases ha
        cases hsettle
        have hleft := (hc.mono (Nat.zero_le (k + 1))).applyWhile (fun htakes hj => by
          rw [takes_operator hp, OperatorTable.bindsTighterOrEqual_iff hj hm] at htakes
          omega) hg
        have hw := hleft.above_of_stops hm hp (stops_of_gives hg)
        obtain ⟨hctx, hd, -, hxl⟩ := hleft
        exact .lacking (.infixed hm hp hw hd hxl hctx)

/-- At a closing parenthesis an expression is complete, or the group is empty. -/
theorem complete_of_closeGroup {stop : Span} (h : Read t values₀ start waiting₀ items state)
    (hc : state.closeGroup stop = .ok values) :
    Complete t values₀ start waiting₀ 0 items values state.waiting ∨
      items = [] ∧ values = ⟨.array [], true, stop⟩ :: values₀ ∧
        state.waiting = .opening start values₀.length :: waiting₀ := by
  cases h with
  | lacking hctx =>
    cases hctx with
    | start =>
      rw [closeGroup] at hc
      simp only [BEq.rfl, Bool.and_self, if_true] at hc
      cases hc
      exact .inr ⟨rfl, rfl, rfl⟩
    | prefixed | infixed | separated => cases hc
  | complete hcomp =>
    rw [closeGroup_of_complete] at hc
    cases hc
    exact .inl hcomp

theorem of_gives_opening {span : Span} (h : Gives (step f t state (.opening span)) s state' s') :
    state.lacksOperand = true ∧ s = s' ∧
      state' = ⟨state.values, .opening span state.values.length :: state.waiting, true⟩ := by
  obtain ⟨u, s₁, ha, h⟩ := gives_bind_iff.1 h
  obtain ⟨hfree, rfl⟩ := gives_liftExcept_iff.1 ha
  obtain ⟨rfl, rfl⟩ := gives_pure_iff.1 h
  have hlack : state.lacksOperand = true := by
    by_contra hf
    rw [admitOperand, if_neg hf] at hfree
    cases hfree
  exact ⟨hlack, rfl, by rw [hlack]⟩

/-- A group that is read is an atom, if what stands in it is on the stacks at its end. -/
theorem read_group {start stop : Span} {w : List Item}
    (hw : ∀ {state' : Stacks} {s s' : σ}, Gives (w.foldlM (step f t)
      ⟨values, .opening start values.length :: waiting, true⟩) s state' s' →
        Read t values start waiting w state')
    (h : Gives ((Item.opening start :: w ++ [Item.closing stop]).foldlM (step f t) state) s
      state' s')
    (hv : state.values = values) (hwait : state.waiting = waiting) :
    state.lacksOperand = true ∧ ∃ x e, state' = ⟨x :: values, waiting, false⟩ ∧
      x.isList = e.isList ∧
      Derives t (.level 0) (.opening start :: w ++ [.closing stop]) e := by
  rw [List.cons_append] at h
  obtain ⟨state₁, s₁, h₁, h⟩ := gives_foldlM_cons_iff.1 h
  obtain ⟨state₂, s₂, h₂, h⟩ := gives_foldlM_append_iff.1 h
  obtain ⟨state₃, s₃, h₃, h⟩ := gives_foldlM_cons_iff.1 h
  obtain ⟨rfl, -⟩ := gives_pure_iff.1 h
  obtain ⟨hlack, -, rfl⟩ := of_gives_opening h₁
  refine ⟨hlack, ?_⟩
  rw [hv, hwait] at h₂
  have hr := hw h₂
  obtain ⟨values₁, r, hclose, hg, hsettle⟩ := gives_step_iff.1 h₃
  rcases complete_of_closeGroup hr hclose with hc | ⟨rfl, rfl, hwait₂⟩
  · obtain ⟨x, e, rfl, hl, hd⟩ := (hc.applyWhile_all hg).settle_closing (stops_of_gives hg) hsettle
    exact ⟨x, e, rfl, hl, .group hd⟩
  · rw [hwait₂] at hg
    obtain ⟨rfl, -⟩ := gives_pure_iff.1 hg
    cases hsettle
    exact ⟨_, .list [], rfl, rfl, .empty⟩

theorem read_foldlM {w : List Item} (hb : Item.Balanced w) (hk : ∀ item ∈ w, item.Known t)
    (h : Read t values₀ start waiting₀ items state)
    (hs : Gives (w.foldlM (step f t) state) s state' s') :
    Read t values₀ start waiting₀ (items ++ w) state' := by
  induction hb generalizing values₀ start waiting₀ items state state' s s' with
  | nil =>
    obtain ⟨rfl, -⟩ := gives_pure_iff.1 hs
    rwa [List.append_nil]
  | leaf hl _ ih =>
    obtain ⟨state₁, s₁, h₁, hs⟩ := gives_foldlM_cons_iff.1 hs
    obtain ⟨hi, hk⟩ := List.forall_mem_cons.1 hk
    rw [List.append_cons]
    exact ih hk (read_step h hl hi h₁) hs
  | @group open' close' u w _ _ ihu ihw =>
    rw [List.append_cons] at hs hk ⊢
    obtain ⟨state₁, s₁, h₁, hs⟩ := gives_foldlM_append_iff.1 hs
    have hku : ∀ item ∈ u, item.Known t := fun item hm => hk item (by simp [hm])
    have hkw : ∀ item ∈ w, item.Known t := fun item hm => hk item (by simp [hm])
    obtain ⟨hlack, x, e, rfl, hxl, hd⟩ :=
      read_group (fun hg => ihu hku (.lacking .start) hg) h₁ rfl rfl
    rw [← List.append_assoc]
    exact ihw hkw (h.atom hlack hd hxl) hs

end Stacks

/-! ## Clauses -/

/-- Balanced items in parentheses that are folded without an error form a clause. -/
theorem Value.exists_isClause {start stop : Span} {body : List Item} {v : Value} {s s' : σ}
    (hb : Item.Balanced body) (hk : ∀ item ∈ body, item.Known t)
    (h : Gives (Value.ofItems f t (.opening start :: body ++ [.closing stop])) s v s') :
    ∃ e, IsClause t (.opening start :: body ++ [.closing stop]) e := by
  obtain ⟨state, s₁, hs, -⟩ := gives_bind_iff.1 h
  obtain ⟨-, x, e, -, -, hd⟩ :=
    Stacks.read_group (fun hg => Stacks.read_foldlM hb hk (.lacking .start) hg) hs rfl rfl
  exact ⟨e, ⟨_, _, _, rfl⟩, hd⟩

end WhereClause
