import WhereClause.Proofs.Operator.Precedence
import WhereClause.Result
import WhereClause.Value.Fold

/-!
# Runs of a folding

A folding gives a value if, from one state of the evaluator, it ends without an error in another,
and it fails if it ends with an error. The rules for `Gives` and `Fails` take a computation apart
step by step. Those for `Keeps` say what holds of the evaluator's state afterwards, whatever the
ending, and those for `Halts` what holds of the ending, whatever the state.
-/

namespace WhereClause

variable {σ α β : Type}

/-- From the state `s` the folding ends with the value `a` in the state `s'`. -/
def Gives (x : Folding σ α) (s : σ) (a : α) (s' : σ) : Prop :=
  x.run.run s = (.ok a, s')

@[simp]
theorem gives_pure_iff {a b : α} {s s' : σ} :
    Gives (pure a : Folding σ α) s b s' ↔ a = b ∧ s = s' := by
  change ((Except.ok a : Except SyntaxError α), s) = _ ↔ _
  simp

@[simp]
theorem gives_bind_iff {x : Folding σ α} {g : α → Folding σ β} {b : β} {s s'' : σ} :
    Gives (x >>= g) s b s'' ↔ ∃ a s', Gives x s a s' ∧ Gives (g a) s' b s'' := by
  have hr : (x >>= g).run.run s = ExceptT.bindCont g (x.run.run s).1 (x.run.run s).2 := rfl
  unfold Gives
  rw [hr]
  generalize x.run.run s = r
  obtain ⟨e | a, s'⟩ := r
  · refine ⟨fun h => ?_, ?_⟩
    · cases congrArg Prod.fst h
    · rintro ⟨a, s', h, -⟩
      cases congrArg Prod.fst h
  · refine ⟨fun h => ⟨a, s', rfl, h⟩, ?_⟩
    rintro ⟨a, s', h, hg⟩
    cases h
    exact hg

theorem Gives.bind {x : Folding σ α} {g : α → Folding σ β} {a : α} {b : β} {s s' s'' : σ}
    (hx : Gives x s a s') (hg : Gives (g a) s' b s'') : Gives (x >>= g) s b s'' :=
  gives_bind_iff.2 ⟨a, s', hx, hg⟩

@[simp]
theorem gives_liftExcept_iff {x : Except SyntaxError α} {a : α} {s s' : σ} :
    Gives (liftM x : Folding σ α) s a s' ↔ x = .ok a ∧ s = s' := by
  change (x, s) = _ ↔ _
  simp

@[simp]
theorem gives_liftState_iff {x : StateM σ α} {a : α} {s s' : σ} :
    Gives (liftM x : Folding σ α) s a s' ↔ x s = (a, s') := by
  change (((Except.ok (x s).1 : Except SyntaxError α), (x s).2) = _) ↔ _
  generalize x s = r
  obtain ⟨b, s''⟩ := r
  refine ⟨fun h => ?_, fun h => ?_⟩ <;> cases h <;> rfl

@[simp]
theorem not_gives_throw {e : SyntaxError} {a : α} {s s' : σ} :
    ¬ Gives (throw e : Folding σ α) s a s' := by
  intro h
  cases congrArg Prod.fst (show ((Except.error e : Except SyntaxError α), s) = (.ok a, s') from h)

theorem gives_foldlM_cons_iff {g : α → β → Folding σ α} {a c : α} {x : β} {rest : List β}
    {s s'' : σ} : Gives ((x :: rest).foldlM g a) s c s'' ↔
      ∃ b s', Gives (g a x) s b s' ∧ Gives (rest.foldlM g b) s' c s'' := by
  rw [List.foldlM_cons, gives_bind_iff]

theorem gives_foldlM_append_iff {g : α → β → Folding σ α} {a c : α} {xs ys : List β}
    {s s'' : σ} : Gives ((xs ++ ys).foldlM g a) s c s'' ↔
      ∃ b s', Gives (xs.foldlM g a) s b s' ∧ Gives (ys.foldlM g b) s' c s'' := by
  rw [List.foldlM_append, gives_bind_iff]

/-! ## Errors -/

/-- From the state `s` the folding ends with the error `e` in the state `s'`. -/
def Fails (x : Folding σ α) (s : σ) (e : SyntaxError) (s' : σ) : Prop :=
  x.run.run s = (.error e, s')

theorem not_fails_pure {a : α} {s s' : σ} {e : SyntaxError} :
    ¬ Fails (pure a : Folding σ α) s e s' := by
  intro h
  cases congrArg Prod.fst (show ((Except.ok a : Except SyntaxError α), s) = (.error e, s') from h)

theorem fails_bind_iff {x : Folding σ α} {g : α → Folding σ β} {e : SyntaxError} {s s'' : σ} :
    Fails (x >>= g) s e s'' ↔
      Fails x s e s'' ∨ ∃ a s', Gives x s a s' ∧ Fails (g a) s' e s'' := by
  have hr : (x >>= g).run.run s = ExceptT.bindCont g (x.run.run s).1 (x.run.run s).2 := rfl
  unfold Fails Gives
  rw [hr]
  generalize x.run.run s = r
  obtain ⟨e' | a, s'⟩ := r
  · refine ⟨fun h => .inl ?_, ?_⟩
    · cases h
      rfl
    · rintro (h | ⟨a, s', h, -⟩)
      · cases h
        rfl
      · cases congrArg Prod.fst h
  · refine ⟨fun h => .inr ⟨a, s', rfl, h⟩, ?_⟩
    rintro (h | ⟨a, s', h, hg⟩)
    · cases congrArg Prod.fst h
    · cases h
      exact hg

theorem fails_liftExcept_iff {x : Except SyntaxError α} {e : SyntaxError} {s s' : σ} :
    Fails (liftM x : Folding σ α) s e s' ↔ x = .error e ∧ s = s' := by
  change (x, s) = _ ↔ _
  simp

theorem fails_check_iff {x : Except SyntaxError α} {g : α → Folding σ β} {e : SyntaxError}
    {s s' : σ} : Fails (liftM x >>= g : Folding σ β) s e s' ↔
      x = .error e ∧ s = s' ∨ ∃ a, x = .ok a ∧ Fails (g a) s e s' := by
  rw [fails_bind_iff, fails_liftExcept_iff]
  refine or_congr_right ⟨?_, ?_⟩
  · rintro ⟨a, s₁, hx, hg⟩
    obtain ⟨ha, rfl⟩ := gives_liftExcept_iff.1 hx
    exact ⟨a, ha, hg⟩
  · rintro ⟨a, hx, hg⟩
    exact ⟨a, s, gives_liftExcept_iff.2 ⟨hx, rfl⟩, hg⟩

theorem not_fails_liftState {x : StateM σ α} {e : SyntaxError} {s s' : σ} :
    ¬ Fails (liftM x : Folding σ α) s e s' := by
  intro h
  cases congrArg Prod.fst
    (show ((Except.ok (x s).1 : Except SyntaxError α), (x s).2) = (.error e, s') from h)

theorem fails_throw_iff {e e' : SyntaxError} {s s' : σ} :
    Fails (throw e : Folding σ α) s e' s' ↔ e = e' ∧ s = s' := by
  change ((Except.error e : Except SyntaxError α), s) = _ ↔ _
  simp

theorem fails_foldlM_cons_iff {g : α → β → Folding σ α} {a : α} {x : β} {rest : List β}
    {e : SyntaxError} {s s'' : σ} : Fails ((x :: rest).foldlM g a) s e s'' ↔
      Fails (g a x) s e s'' ∨
        ∃ b s', Gives (g a x) s b s' ∧ Fails (rest.foldlM g b) s' e s'' := by
  rw [List.foldlM_cons, fails_bind_iff]

theorem fails_foldlM_append_iff {g : α → β → Folding σ α} {a : α} {xs ys : List β}
    {e : SyntaxError} {s s'' : σ} : Fails ((xs ++ ys).foldlM g a) s e s'' ↔
      Fails (xs.foldlM g a) s e s'' ∨
        ∃ b s', Gives (xs.foldlM g a) s b s' ∧ Fails (ys.foldlM g b) s' e s'' := by
  rw [List.foldlM_append, fails_bind_iff]

/-- A folding gives a value or fails. -/
theorem exists_gives_or_fails (x : Folding σ α) (s : σ) :
    (∃ a s', Gives x s a s') ∨ ∃ e s', Fails x s e s' := by
  unfold Gives Fails
  generalize x.run.run s = r
  obtain ⟨e | a, s'⟩ := r
  · exact .inr ⟨e, s', rfl⟩
  · exact .inl ⟨a, s', rfl⟩

/-! ## Invariants -/

section Invariants

variable {I : σ → Prop} {Q : α → Prop} {R : β → Prop}

/-- From a state in which `I` holds the folding ends in such a state, with an error or with a value
in which `Q` holds. -/
structure Keeps (I : σ → Prop) (x : Folding σ α) (Q : α → Prop) : Prop where
  gives : ∀ {s a s'}, I s → Gives x s a s' → I s' ∧ Q a
  fails : ∀ {s e s'}, I s → Fails x s e s' → I s'

theorem keeps_pure {a : α} (h : Q a) : Keeps I (pure a : Folding σ α) Q where
  gives hs hg := by
    obtain ⟨rfl, rfl⟩ := gives_pure_iff.1 hg
    exact ⟨hs, h⟩
  fails _ hf := absurd hf not_fails_pure

theorem keeps_throw (e : SyntaxError) : Keeps I (throw e : Folding σ α) Q where
  gives _ hg := absurd hg not_gives_throw
  fails hs hf := by
    obtain ⟨-, rfl⟩ := fails_throw_iff.1 hf
    exact hs

theorem keeps_liftExcept {x : Except SyntaxError α} (h : ∀ a, x = .ok a → Q a) :
    Keeps I (liftM x : Folding σ α) Q where
  gives hs hg := by
    obtain ⟨ha, rfl⟩ := gives_liftExcept_iff.1 hg
    exact ⟨hs, h _ ha⟩
  fails hs hf := by
    obtain ⟨-, rfl⟩ := fails_liftExcept_iff.1 hf
    exact hs

theorem Keeps.bind {x : Folding σ α} {g : α → Folding σ β} (hx : Keeps I x Q)
    (hg : ∀ a, Q a → Keeps I (g a) R) : Keeps I (x >>= g) R where
  gives hs h := by
    obtain ⟨a, s₁, h₁, h₂⟩ := gives_bind_iff.1 h
    obtain ⟨hs₁, ha⟩ := hx.gives hs h₁
    exact (hg a ha).gives hs₁ h₂
  fails hs h := by
    rcases fails_bind_iff.1 h with h | ⟨a, s₁, h₁, h₂⟩
    · exact hx.fails hs h
    · obtain ⟨hs₁, ha⟩ := hx.gives hs h₁
      exact (hg a ha).fails hs₁ h₂

theorem keeps_foldlM {g : α → β → Folding σ α} (hg : ∀ a b, Q a → Keeps I (g a b) Q) :
    ∀ (bs : List β) {a : α}, Q a → Keeps I (bs.foldlM g a) Q
  | [], _, h => keeps_pure h
  | b :: rest, a, h => by
    rw [List.foldlM_cons]
    exact (hg a b h).bind fun _ h' => keeps_foldlM hg rest h'

theorem Keeps.run {x : Folding σ α} (h : Keeps I x Q) {s : σ} (hs : I s) :
    I (x.run.run s).2 := by
  rcases exists_gives_or_fails x s with ⟨a, s', hg⟩ | ⟨e, s', hf⟩
  · rw [show x.run.run s = _ from hg]
    exact (h.gives hs hg).1
  · rw [show x.run.run s = _ from hf]
    exact h.fails hs hf

end Invariants

/-! ## Endings of a folding -/

/-- The folding ends with a value in which `Q` holds or with an error in which `E` holds, whatever
the evaluator's state. -/
structure Halts (x : Folding σ α) (Q : α → Prop) (E : SyntaxError → Prop) : Prop where
  gives : ∀ {s a s'}, Gives x s a s' → Q a
  fails : ∀ {s e s'}, Fails x s e s' → E e

section Halts

variable {x : Folding σ α} {Q : α → Prop} {E F : SyntaxError → Prop}

theorem halts_pure {a : α} (h : Q a) : Halts (pure a : Folding σ α) Q E where
  gives hg := (gives_pure_iff.1 hg).1 ▸ h
  fails hf := absurd hf not_fails_pure

theorem halts_throw {e : SyntaxError} (h : E e) : Halts (throw e : Folding σ α) Q E where
  gives hg := absurd hg not_gives_throw
  fails hf := (fails_throw_iff.1 hf).1 ▸ h

theorem halts_evaluation (y : StateM σ α) : Halts (liftM y : Folding σ α) (fun _ => True) E where
  gives _ := trivial
  fails hf := absurd hf not_fails_liftState

theorem Halts.bind {g : α → Folding σ β} {R : β → Prop} (hx : Halts x Q E)
    (hg : ∀ a, Q a → Halts (g a) R E) : Halts (x >>= g) R E where
  gives h := by
    obtain ⟨a, s₁, h₁, h₂⟩ := gives_bind_iff.1 h
    exact (hg a (hx.gives h₁)).gives h₂
  fails h := by
    rcases fails_bind_iff.1 h with h | ⟨a, s₁, h₁, h₂⟩
    · exact hx.fails h
    · exact (hg a (hx.gives h₁)).fails h₂

theorem Halts.imp_error (h : Halts x Q E) (hE : ∀ e, E e → F e) : Halts x Q F where
  gives := h.gives
  fails hf := hE _ (h.fails hf)

end Halts

/-! ## Stacks -/

namespace Stacks

variable {t : OperatorTable} {values : List Stacked} {waiting : List Waiting}

theorem admitEnd_of_complete : (⟨values, waiting, false⟩ : Stacks).admitEnd = .ok () := by
  unfold admitEnd
  split <;> rfl

theorem closeGroup_of_complete (span : Span) :
    (⟨values, waiting, false⟩ : Stacks).closeGroup span = .ok values := by
  rw [closeGroup, admitEnd_of_complete]
  rcases waiting with - | ⟨_ | _, _⟩ <;> rfl

/-- An operator of tier `k` may begin here: the one that waits binds no tighter. -/
def Above (t : OperatorTable) (k : Nat) : List Waiting → Prop
  | .operator op _ _ :: _ => ∃ j, k ≤ j ∧ op ∈ t.tier j
  | _ => True

theorem Above.mono {j k : Nat} (h : Above t k waiting) (hjk : j ≤ k) : Above t j waiting := by
  unfold Above at h ⊢
  split at h
  · obtain ⟨i, hi, hm⟩ := h
    exact ⟨i, by omega, hm⟩
  · trivial

theorem above_cons {op : Operator} {k : Nat} (hm : op ∈ t.tier k) (span : Span) (separated : Bool) :
    Above t k (.operator op span separated :: waiting) :=
  ⟨k, Nat.le_refl k, hm⟩

end Stacks

end WhereClause
