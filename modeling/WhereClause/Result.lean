/-!
# Results that may be errors

Equations for steps that follow each other while none fails, and a rule for what holds at their end,
whether they fail or not.
-/

namespace WhereClause

variable {ε α β : Type}

@[simp]
theorem ok_bind (a : α) (f : α → Except ε β) : (Except.ok a >>= f) = f a := rfl

@[simp]
theorem error_bind (e : ε) (f : α → Except ε β) : (Except.error e >>= f) = .error e := rfl

theorem bind_eq_ok_iff {x : Except ε α} {f : α → Except ε β} {b : β} :
    (x >>= f) = .ok b ↔ ∃ a, x = .ok a ∧ f a = .ok b := by
  cases x <;> simp

theorem bind_eq_error_iff {x : Except ε α} {f : α → Except ε β} {e : ε} :
    (x >>= f) = .error e ↔ x = .error e ∨ ∃ a, x = .ok a ∧ f a = .error e := by
  cases x <;> simp

theorem foldlM_cons_eq_ok_iff {f : α → β → Except ε α} {a c : α} {x : β} {rest : List β} :
    (x :: rest).foldlM f a = .ok c ↔ ∃ b, f a x = .ok b ∧ rest.foldlM f b = .ok c := by
  rw [List.foldlM_cons, bind_eq_ok_iff]

theorem foldlM_append_eq_ok_iff {f : α → β → Except ε α} {a c : α} {xs ys : List β} :
    (xs ++ ys).foldlM f a = .ok c ↔ ∃ b, xs.foldlM f a = .ok b ∧ ys.foldlM f b = .ok c := by
  rw [List.foldlM_append, bind_eq_ok_iff]

theorem foldlM_concat_eq_ok_iff {f : α → β → Except ε α} {a c : α} {xs : List β} {x : β} :
    (xs ++ [x]).foldlM f a = .ok c ↔ ∃ b, xs.foldlM f a = .ok b ∧ f b x = .ok c := by
  rw [foldlM_append_eq_ok_iff]
  simp

/-- What each step preserves holds at the end of all steps. -/
theorem foldlM_preserves {f : α → β → Except ε α} {Q : α → Prop}
    (hf : ∀ {a b x}, Q a → f a x = .ok b → Q b) {xs : List β} {a c : α} (ha : Q a)
    (h : xs.foldlM f a = .ok c) : Q c := by
  induction xs generalizing a with
  | nil =>
    cases h
    exact ha
  | cons x rest ih =>
    obtain ⟨b, hb, hrest⟩ := foldlM_cons_eq_ok_iff.1 h
    exact ih (hf ha hb) hrest

/-- What comes after an error has no influence. -/
theorem foldlM_append_eq_error {f : α → β → Except ε α} {a : α} {xs : List β} {e : ε}
    (h : xs.foldlM f a = .error e) (ys : List β) : (xs ++ ys).foldlM f a = .error e := by
  rw [List.foldlM_append, h]
  rfl

theorem foldlM_append_eq_error_of_ok {f : α → β → Except ε α} {a b : α} {xs ys : List β} {e : ε}
    (h : xs.foldlM f a = .ok b) (he : ys.foldlM f b = .error e) :
    (xs ++ ys).foldlM f a = .error e := by
  rw [List.foldlM_append, h]
  exact he

theorem foldlM_cons_eq_error {f : α → β → Except ε α} {a : α} {x : β} {e : ε}
    (h : f a x = .error e) (rest : List β) : (x :: rest).foldlM f a = .error e := by
  rw [List.foldlM_cons, h]
  rfl

/-- The result is a value in which `Q` holds, or an error in which `E` holds. -/
def Settles (x : Except ε α) (Q : α → Prop) (E : ε → Prop) : Prop :=
  match x with
  | .ok a => Q a
  | .error e => E e

theorem Settles.bind {x : Except ε α} {f : α → Except ε β} {Q : α → Prop} {R : β → Prop}
    {E : ε → Prop} (hx : Settles x Q E) (hf : ∀ a, Q a → Settles (f a) R E) :
    Settles (x >>= f) R E := by
  cases x with
  | error e => exact hx
  | ok a => exact hf a hx

theorem Settles.imp_ok {x : Except ε α} {Q R : α → Prop} {E : ε → Prop} (h : Settles x Q E)
    (hQ : ∀ a, Q a → R a) : Settles x R E := by
  cases x with
  | error e => exact h
  | ok a => exact hQ a h

theorem Settles.imp_error {x : Except ε α} {Q : α → Prop} {E F : ε → Prop} (h : Settles x Q E)
    (hE : ∀ e, E e → F e) : Settles x Q F := by
  cases x with
  | error e => exact hE e h
  | ok a => exact h

theorem exists_eq_ok {x : Except ε α} (h : x.isOk = true) : ∃ a, x = .ok a := by
  cases x with
  | error e => cases h
  | ok a => exact ⟨a, rfl⟩

theorem exists_eq_ok_of_any {x : Except ε α} {p : α → Bool} (h : x.toOption.any p = true) :
    ∃ a, x = .ok a ∧ p a = true := by
  cases x with
  | error e => cases h
  | ok a => exact ⟨a, rfl, h⟩

theorem exists_eq_error {x : Except ε α} {p : ε → Bool}
    (h : (match x with | .error e => p e | .ok _ => false) = true) :
    ∃ e, x = .error e ∧ p e = true := by
  cases x with
  | error e => exact ⟨e, rfl, h⟩
  | ok a => cases h

end WhereClause
