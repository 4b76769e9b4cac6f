import Mathlib.Data.List.Infix
import WhereClause.Item.Tagging
import WhereClause.Result

/-!
# Parentheses of tokens

The only tokens that are refused are those whose parentheses do not pair up. The refusal names a
closing parenthesis if one comes too early, and else the last opening one that stays open.

Some parentheses are groups and others belong to literal lists, and the two are kept apart while
tokens are read. For their pairing this makes no difference: the open ones, of both kinds, are a
single stack.
-/

namespace WhereClause

namespace Token

/-- Whether the token closes a parenthesis. -/
def isClosing (t : Token) : Bool :=
  match t.kind with
  | .punctuation mark => mark == ')'
  | _ => false

theorem isOpening_iff {t : Token} : t.isOpening = true ↔ t.kind = .punctuation '(' := by
  unfold isOpening
  split <;> simp_all

theorem isClosing_iff {t : Token} : t.isClosing = true ↔ t.kind = .punctuation ')' := by
  unfold isClosing
  split <;> simp_all

theorem isClosing_of_isOpening {t : Token} (h : t.isOpening = true) : t.isClosing = false := by
  rw [isClosing, isOpening_iff.1 h]
  rfl

theorem isOpening_of_isClosing {t : Token} (h : t.isClosing = true) : t.isOpening = false := by
  rw [isOpening, isClosing_iff.1 h]
  rfl

/-! ## Balanced tokens -/

variable {u w tokens : List Token} {t : Token} {span : Span} {spans : List Span}

/-- Each closing parenthesis comes after an opening one that is its own: no beginning of the tokens
has more closing than opening parentheses. -/
def Closable (tokens : List Token) : Prop :=
  ∀ u, u <+: tokens → u.countP isClosing ≤ u.countP isOpening

/-- Each parenthesis has its partner. -/
def Balanced (tokens : List Token) : Prop :=
  Closable tokens ∧ tokens.countP isClosing = tokens.countP isOpening

instance : Decidable (Closable tokens) :=
  decidable_of_iff (∀ u ∈ tokens.inits, u.countP isClosing ≤ u.countP isOpening)
    (by simp only [List.mem_inits, Closable])

instance : Decidable (Balanced tokens) :=
  inferInstanceAs (Decidable (_ ∧ _))

theorem Closable.of_prefix (h : Closable w) (hu : u <+: w) : Closable u :=
  fun v hv => h v (hv.trans hu)

theorem closable_concat (h : Closable w)
    (ht : (w ++ [t]).countP isClosing ≤ (w ++ [t]).countP isOpening) : Closable (w ++ [t]) := by
  intro u hu
  rcases List.prefix_concat_iff.1 hu with rfl | hu
  · exact ht
  · exact h u hu

theorem Closable.append (hu : Closable u) (hw : Closable w) : Closable (u ++ w) := by
  induction w using List.reverseRecOn with
  | nil => simpa using hu
  | append_singleton w t ih =>
    have hw' : Closable w := hw.of_prefix (List.prefix_append w [t])
    rw [← List.append_assoc]
    apply closable_concat (ih hw')
    have h₁ := hu u List.prefix_rfl
    have h₂ := hw _ List.prefix_rfl
    simp only [List.countP_append] at h₂ ⊢
    omega

theorem Balanced.append (hu : Balanced u) (hw : Balanced w) : Balanced (u ++ w) :=
  ⟨hu.1.append hw.1, by rw [List.countP_append, List.countP_append, hu.2, hw.2]⟩

theorem balanced_nil : Balanced [] := by decide

theorem balanced_singleton (ho : t.isOpening = false) (hc : t.isClosing = false) :
    Balanced [t] := by
  refine ⟨closable_concat balanced_nil.1 ?_, ?_⟩ <;> simp [ho, hc]

theorem closable_opening (ho : t.isOpening = true) : Closable [t] :=
  closable_concat balanced_nil.1 (by simp [ho, isClosing_of_isOpening ho])

theorem Balanced.wrap {o c : Token} (hw : Balanced w) (ho : o.isOpening = true)
    (hc : c.isClosing = true) : Balanced (o :: w ++ [c]) := by
  have hcount : (o :: w ++ [c]).countP isClosing = (o :: w ++ [c]).countP isOpening := by
    simp [ho, hc, isClosing_of_isOpening ho, isOpening_of_isClosing hc, hw.2]
  exact ⟨closable_concat ((closable_opening ho).append hw.1) hcount.le, hcount⟩

/-- In balanced tokens each opening parenthesis is closed. -/
theorem Balanced.not_closable (h : Balanced (u ++ t :: w)) (ho : t.isOpening = true) :
    ¬ Closable w := by
  intro hw
  have hbefore := h.1 u (List.prefix_append u (t :: w))
  have hafter := hw w List.prefix_rfl
  have hcount := h.2
  rw [List.countP_append, List.countP_append, List.countP_cons_of_pos ho,
    List.countP_cons_of_neg (by simp [isClosing_of_isOpening ho])] at hcount
  omega

/-- After balanced tokens there is nothing to close. -/
theorem Balanced.not_closable_append (hu : Balanced u) (hc : t.isClosing = true)
    (w : List Token) : ¬ Closable (u ++ t :: w) := by
  intro h
  have hlast : u.countP isClosing + 1 ≤ u.countP isOpening := by
    simpa [hc, isOpening_of_isClosing hc] using h (u ++ [t]) ⟨w, by simp⟩
  have hcount := hu.2
  omega

/-! ## The parenthesis that is refused -/

/-- The place of the parenthesis for which tokens are refused. -/
inductive Unmatched (tokens : List Token) : Span → Prop
  /-- The first closing parenthesis before which none is open. -/
  | closing {u w : List Token} {t : Token} : tokens = u ++ t :: w → t.isClosing = true →
    Balanced u → Unmatched tokens t.span
  /-- If there is none, the last opening parenthesis that is never closed. -/
  | opening {u w : List Token} {t : Token} : Closable tokens → tokens = u ++ t :: w →
    t.isOpening = true → Closable w →
    (∀ v o v', w = v ++ o :: v' → o.isOpening = true → ¬ Closable v') → Unmatched tokens t.span

theorem Unmatched.not_balanced (h : Unmatched tokens span) : ¬ Balanced tokens := by
  intro hb
  cases h with
  | closing hs hc hu =>
    rw [hs] at hb
    exact hu.not_closable_append hc _ hb.1
  | opening _ hs ho hw _ =>
    rw [hs] at hb
    exact hb.not_closable ho hw

/-- Of two tokens at different places one comes first. -/
theorem eq_or_comes_first {u w u' w' : List Token} {t t' : Token}
    (h : u ++ t :: w = u' ++ t' :: w') :
    t = t' ∨ (∃ v, u' = u ++ t :: v ∧ w = v ++ t' :: w') ∨
      ∃ v, u = u' ++ t' :: v ∧ w' = v ++ t :: w := by
  rcases List.append_eq_append_iff.1 h with ⟨v, hu, h⟩ | ⟨v, hu, h⟩
  all_goals
    rcases List.cons_eq_append_iff.1 h with ⟨-, ht⟩ | ⟨v', rfl, hw⟩
    · cases ht
      exact .inl rfl
  · exact .inr (.inl ⟨v', hu, hw⟩)
  · exact .inr (.inr ⟨v', hu, hw⟩)

/-- Tokens are refused for one parenthesis only. -/
theorem Unmatched.unique {span' : Span} (h : Unmatched tokens span)
    (h' : Unmatched tokens span') : span = span' := by
  cases h with
  | closing hs hc hu =>
    cases h' with
    | closing hs' hc' hu' =>
      rcases eq_or_comes_first (hs.symm.trans hs') with rfl | ⟨v, rfl, -⟩ | ⟨v, rfl, -⟩
      · rfl
      · exact absurd hu'.1 (hu.not_closable_append hc v)
      · exact absurd hu.1 (hu'.not_closable_append hc' v)
    | opening hall =>
      rw [hs] at hall
      exact absurd hall (hu.not_closable_append hc _)
  | opening hall hs ho hw hlast =>
    cases h' with
    | closing hs' hc' hu' =>
      rw [hs'] at hall
      exact absurd hall (hu'.not_closable_append hc' _)
    | opening _ hs' ho' hw' hlast' =>
      rcases eq_or_comes_first (hs.symm.trans hs') with rfl | ⟨v, -, hv⟩ | ⟨v, -, hv⟩
      · rfl
      · exact absurd hw' (hlast v _ _ hv ho')
      · exact absurd hw (hlast' v _ _ hv ho)

/-- After the tokens the parentheses at `spans` are open, latest first. -/
inductive Opened : List Span → List Token → Prop
  | nil {w : List Token} : Balanced w → Opened [] w
  | cons {spans : List Span} {t : Token} {u w : List Token} : Opened spans u →
    t.isOpening = true → Balanced w → Opened (t.span :: spans) (u ++ t :: w)

namespace Opened

theorem append (h : Opened spans u) (hw : Balanced w) : Opened spans (u ++ w) := by
  cases h with
  | nil hu => exact .nil (hu.append hw)
  | cons hu ht hv =>
    rw [List.append_assoc, List.cons_append]
    exact .cons hu ht (hv.append hw)

theorem close (h : Opened (span :: spans) u) (hc : t.isClosing = true) :
    Opened spans (u ++ [t]) := by
  cases h with
  | cons hu ho hw =>
    rw [List.append_assoc, List.cons_append]
    exact hu.append (hw.wrap ho hc)

theorem balanced (h : Opened [] u) : Balanced u := by
  cases h with
  | nil hu => exact hu

theorem closable (h : Opened spans u) : Closable u := by
  induction h with
  | nil hu => exact hu.1
  | cons _ ho hw ih => exact ih.append ((closable_opening ho).append hw.1)

/-- The open parenthesis that came last is the one to name, since those after it are closed. -/
theorem unmatched (h : Opened (span :: spans) tokens) : Unmatched tokens span := by
  have hclosable := h.closable
  cases h with
  | cons hu ho hw =>
    refine .opening hclosable rfl ho hw.1 fun v o v' hs ho' => ?_
    rw [hs] at hw
    exact hw.not_closable ho'

end Opened

/-! ## A stack of parentheses -/

/-- Reads a token with the open parentheses on a stack, latest first. -/
def track (spans : List Span) (token : Token) : Except SyntaxError (List Span) :=
  if token.isOpening then
    .ok (token.span :: spans)
  else if token.isClosing then
    match spans with
    | [] => .error (.unmatchedParenthesis token.span)
    | _ :: spans => .ok spans
  else
    .ok spans

theorem track_other (ho : t.kind ≠ .punctuation '(') (hc : t.kind ≠ .punctuation ')') :
    track spans t = .ok spans := by
  unfold track
  rw [if_neg (mt isOpening_iff.1 ho), if_neg (mt isClosing_iff.1 hc)]

/-- The stack holds the open parentheses, until a closing one comes while none is open. -/
theorem Opened.track (h : Opened spans u) (t : Token) :
    (∃ spans', track spans t = .ok spans' ∧ Opened spans' (u ++ [t])) ∨
      spans = [] ∧ t.isClosing = true ∧ track spans t = .error (.unmatchedParenthesis t.span) := by
  unfold Token.track
  split
  · rename_i ho
    exact .inl ⟨_, rfl, .cons h ho balanced_nil⟩
  · rename_i ho
    split
    · rename_i hc
      cases spans with
      | nil => exact .inr ⟨rfl, hc, rfl⟩
      | cons span rest => exact .inl ⟨rest, rfl, h.close hc⟩
    · rename_i hc
      exact .inl ⟨spans, rfl, h.append (balanced_singleton (by simpa using ho) (by simpa using hc))⟩

end Token

/-! ## Reading tokens -/

/-- The parentheses of the lists, innermost first. -/
def Capture.opens (capture : Capture) : List Span :=
  capture.inner.span :: capture.outer.map OpenList.span

theorem Capture.opens_push (capture : Capture) (token : Token) :
    (capture.push token).opens = capture.opens := by
  unfold Capture.push
  split <;> rfl

namespace Tagging

open Token

variable {table : OperatorTable} {state : Tagging} {token : Token} {u : List Token}

/-- The open parentheses, those of literal lists included, latest first. -/
def opens (state : Tagging) : List Span :=
  (state.capture.elim [] Capture.opens) ++ state.groups.map OpenGroup.span

theorem opens_readWord (word : String) (span : Span) :
    (readWord table state word span).opens = state.opens := by
  unfold readWord
  split
  · rfl
  · split <;> rfl

theorem track_readListToken {capture : Capture} (h : state.capture = some capture) :
    track state.opens token = .ok (readListToken state capture token).opens := by
  unfold readListToken
  split
  · rename_i hk
    simp [track, isOpening, hk, opens, h, Capture.opens]
  · rename_i hk
    dsimp only
    -- the outermost list becomes an item, any other an element of the one around it
    split <;> rename_i ho <;>
      simp [track, isOpening, isClosing, hk, opens, h, ho, Capture.opens, push,
        OpenList.push]
  · rename_i ho hc
    rw [track_other ho hc]
    simp [opens, h, Capture.opens_push]

theorem track_readToken (h : state.capture = none) :
    track state.opens token = opens <$> readToken table state token := by
  unfold readToken
  split
  · rename_i hk
    rw [track_other (by simp [hk]) (by simp [hk])]
    rfl
  · rename_i hk
    -- after an `IN` it opens a literal list, elsewhere a group
    split <;> simp [track, isOpening, hk, opens, h, Capture.opens, push]
  · rename_i hk
    unfold readClosing
    split <;> rename_i hg <;>
      simp [track, isOpening, isClosing, hk, opens, h, hg, push]
  · rename_i ho hc hk
    rw [track_other (by simpa [hk] using ho) (by simpa [hk] using hc)]
    exact congrArg Except.ok (opens_readWord _ _).symm
  all_goals
    rename_i hk
    rw [track_other (by simp [hk]) (by simp [hk])]
    exact congrArg Except.ok (opens_readWord _ _).symm

/-- Reading a token does to the open parentheses what the stack does, whether in a literal list or
not. -/
theorem track_opens (table : OperatorTable) (state : Tagging) (token : Token) :
    track state.opens token = opens <$> step table state token := by
  unfold step
  split
  · rename_i capture h
    exact track_readListToken h
  · rename_i h
    exact track_readToken h

theorem opened_step (h : Opened state.opens u) (t : Token) :
    (∃ state', step table state t = .ok state' ∧ Opened state'.opens (u ++ [t])) ∨
      state.opens = [] ∧ t.isClosing = true ∧
        step table state t = .error (.unmatchedParenthesis t.span) := by
  have htrack := h.track t
  rw [track_opens table] at htrack
  cases hs : step table state t with
  | error err =>
    rw [hs] at htrack
    rcases htrack with ⟨_, ⟨⟩, -⟩ | ⟨hnil, hc, he⟩
    cases he
    exact .inr ⟨hnil, hc, rfl⟩
  | ok state' =>
    rw [hs] at htrack
    rcases htrack with ⟨_, ⟨⟩, h'⟩ | ⟨-, -, ⟨⟩⟩
    exact .inl ⟨state', rfl, h'⟩

/-- While tokens are read the open parentheses are known, and a closing one is refused if there is
none. -/
theorem opened_foldlM (h : Opened state.opens u) (w : List Token) :
    (∃ state', w.foldlM (step table) state = .ok state' ∧ Opened state'.opens (u ++ w)) ∨
      ∃ span, w.foldlM (step table) state = .error (.unmatchedParenthesis span) ∧
        Unmatched (u ++ w) span := by
  induction w generalizing state u with
  | nil => exact .inl ⟨state, rfl, by rwa [List.append_nil]⟩
  | cons t rest ih =>
    rw [List.foldlM_cons]
    rcases opened_step h t with ⟨state', ht, h'⟩ | ⟨hnil, hc, ht⟩
    · rw [ht, ok_bind, List.append_cons]
      exact ih h'
    · rw [hnil] at h
      rw [ht, error_bind]
      exact .inr ⟨t.span, rfl, .closing rfl hc h.balanced⟩

theorem finish_of_opens_nil (h : state.opens = []) (length : Nat) :
    ∃ items, state.finish length = .ok items := by
  unfold finish
  split
  · simp [opens, *, Capture.opens] at h
  · simp [opens, *] at h
  · exact ⟨_, rfl⟩

theorem finish_of_opens_cons {span : Span} {spans : List Span} (h : state.opens = span :: spans)
    (length : Nat) : state.finish length = .error (.unmatchedParenthesis span) := by
  unfold finish
  split
  · rename_i hc
    simp only [opens, hc, Option.elim_some, Capture.opens, List.cons_append, List.cons.injEq] at h
    rw [h.1]
  · rename_i hc hg
    simp only [opens, hc, hg, Option.elim_none, List.nil_append, List.map_cons,
      List.cons.injEq] at h
    rw [h.1]
  · simp [opens, *] at h

end Tagging

/-- Tokens are read into items if they are balanced, and else refused for the parenthesis that has
no partner. -/
theorem Item.ofTokens_or_unmatched (table : OperatorTable) (length : Nat) (tokens : List Token) :
    (∃ items, Item.ofTokens table length tokens = .ok items) ∧ Token.Balanced tokens ∨
      ∃ span, Item.ofTokens table length tokens = .error (.unmatchedParenthesis span) ∧
        Token.Unmatched tokens span := by
  rw [Item.ofTokens]
  have hinitial : Token.Opened Tagging.initial.opens [] := .nil Token.balanced_nil
  rcases Tagging.opened_foldlM hinitial tokens with ⟨state, hs, ho⟩ | ⟨span, hs, hu⟩
  · rw [hs, ok_bind]
    generalize hopens : state.opens = spans at ho
    cases spans with
    | nil => exact .inl ⟨Tagging.finish_of_opens_nil hopens length, ho.balanced⟩
    | cons span rest =>
      exact .inr ⟨span, Tagging.finish_of_opens_cons hopens length, ho.unmatched⟩
  · rw [hs, error_bind]
    exact .inr ⟨span, rfl, hu⟩

end WhereClause
