import WhereClause.Proofs.Expr.Derived
import WhereClause.Proofs.Item.Rereading

/-!
# Reading the text of a tree that was read

The text of a clause's tree is again a clause, and the tree of that clause is the given one, if the
tree is faithful. If it is not, the text either is no clause or has another tree, so `Expr.Faithful`
is the exact condition of a round trip.

The strings and names of a text are those of its tree. So if the trees agree, all strings have been
read back and no float has fallen into parts; the tokens of the text are then known, and the reading
of these tokens shows that the tree is regular.
-/

namespace WhereClause

open Grammar Tagging

/-! ## Equal trees -/

namespace Operand

variable {x y : Operand}

theorem string?_congr (h : (x == y) = true) : x.string? = y.string? := by
  cases x with
  | identifier name =>
    cases y with
    | identifier name' => rfl
    | literal value => cases h
  | literal value =>
    cases y with
    | identifier name => cases h
    | literal value' =>
      by_cases hs : ∃ text text', value = .string text ∧ value' = .string text'
      · obtain ⟨text, text', rfl, rfl⟩ := hs
        have h : (text == text') = true := h
        rw [eq_of_beq h]
      · cases value <;> cases value' <;> first | rfl | cases h | exact absurd ⟨_, _, rfl, rfl⟩ hs

theorem name?_congr (h : (x == y) = true) : x.name? = y.name? := by
  cases x with
  | identifier name =>
    cases y with
    | identifier name' =>
      have h : (name == name') = true := h
      rw [eq_of_beq h]
    | literal value => cases h
  | literal value =>
    cases y with
    | identifier name => cases h
    | literal value' => rfl

end Operand

/-- What equal operands have in common, equal trees have in common. -/
theorem Expr.leaves_congr {β : Type} {g : Operand → Option β}
    (hg : ∀ x y : Operand, (x == y) = true → g x = g y) {a b : Expr} (h : a.same b = true) :
    a.leaves.filterMap g = b.leaves.filterMap g := by
  have hall {xs : List Expr} (ih : ∀ a ∈ xs, ∀ b, a.same b = true →
      a.leaves.filterMap g = b.leaves.filterMap g) {ys : List Expr} (h : sameAll xs ys = true) :
      (xs.flatMap leaves).filterMap g = (ys.flatMap leaves).filterMap g := by
    induction xs generalizing ys with
    | nil =>
      cases ys with
      | nil => rfl
      | cons y ys => cases h
    | cons x xs ihx =>
      cases ys with
      | nil => cases h
      | cons y ys =>
        rw [sameAll, Bool.and_eq_true_iff] at h
        rw [List.flatMap_cons, List.flatMap_cons, List.filterMap_append, List.filterMap_append,
          ih x (by simp) y h.1, ihx (fun a ha => ih a (List.mem_cons_of_mem x ha)) h.2]
  induction a using induction_subtrees generalizing b with
  | operand x =>
    cases b with
    | operand y =>
      rw [same] at h
      simp only [leaves, List.filterMap_cons, hg x y h]
    | _ => cases h
  | list xs ih =>
    cases b with
    | list ys =>
      rw [same] at h
      rw [leaves_list, leaves_list]
      exact hall (fun a ha b => ih a ha) h
    | _ => cases h
  | operation op xs ih =>
    cases b with
    | operation op' ys =>
      rw [same, Bool.and_eq_true_iff] at h
      rw [leaves_operation, leaves_operation]
      exact hall (fun a ha b => ih a ha) h.2
    | _ => cases h

/-! ## Texts of trees -/

namespace Parser

variable {e : Expr} {clause : String} {r : Parsed}

theorem kinds_render (e : Expr) :
    (standard.tokenize e.render).map Token.kind = kindsAt 0 e.write := by
  have h : standard.tokenize e.render = Lexicon.standard.scan 0 e.render.toList := rfl
  rw [h, Expr.render, String.toList_ofList]
  rfl

/-- Tokens that are read as a whole expression are those of a clause. -/
theorem exists_parse_of_reads (h : Reads top initial (standard.tokenize clause) e) :
    ∃ r, standard.parse clause = .ok r ∧ r.tree = e := by
  obtain ⟨w, hr, -, hd⟩ := h
  let stop := clause.utf8ByteSize
  have hi : standard.items clause =
      .ok (.opening (.point 0) :: w ++ [.closing (.point stop)]) := by
    refine bind_eq_ok_iff.2 ⟨_, hr, ?_⟩
    simp [finish, initial, extend, push, stop]
  have hc : IsClause .standard (.opening (.point 0) :: w ++ [.closing (.point stop)]) e :=
    ⟨⟨_, _, w, rfl⟩, .group hd⟩
  obtain ⟨x, hx, -, rfl⟩ := Phrase.exists_ofItems hc
  exact ⟨_, parse_eq_ok_iff.2 ⟨_, x, hi, hx, rfl⟩, rfl⟩

/-- A text whose tokens are those of the tree is a clause. -/
theorem exists_parse_render (h : e.Shaped Operand.Readable false) (hq : e.Quotes)
    (hw : ∀ x ∈ e.leaves, x.Whole) :
    ∃ r, standard.parse e.render = .ok r ∧
      (r.tree.same e = true ↔ e.regular false = true) := by
  have hk : (standard.tokenize e.render).map Token.kind = e.kinds := by
    rw [kinds_render]
    exact (Expr.lexes_write h).kindsAt_eq hq 0
  have hready : initial.Ready := ⟨rfl, rfl, rfl⟩
  obtain ⟨e', hreads, hsame⟩ := exists_reads_tree h hw hready rfl hk
  obtain ⟨r, hr, rfl⟩ := exists_parse_of_reads hreads
  exact ⟨r, hr, hsame⟩

/-- If the tree comes back, its strings have come back. -/
theorem quotes_of_same (h : e.Shaped Operand.Readable false)
    (hr : standard.parse e.render = .ok r) (hs : r.tree.same e = true) : e.Quotes := by
  by_contra hq
  obtain ⟨-, hstrings⟩ := shaped_of_parse tracks_string hr
  rw [kinds_render, Expr.leaves_congr (fun _ _ => Operand.string?_congr) hs,
    ← Expr.strings_kinds h] at hstrings
  have hprefix : e.kinds.filterMap Token.Kind.string? <+:
      (kindsAt 0 e.write).filterMap Token.Kind.string? := hstrings ▸ List.prefix_rfl
  refine (Expr.lexes_write h 0 [] (by simp [Lexicon.Ends])).2 hq ?_
  rwa [List.append_nil]

/-- If the tree comes back, none of its leaves has fallen into parts. -/
theorem whole_of_same (h : e.Shaped Operand.Readable false)
    (hr : standard.parse e.render = .ok r) (hs : r.tree.same e = true) (hq : e.Quotes) :
    ∀ x ∈ e.leaves, x.Whole := by
  obtain ⟨-, hnames⟩ := shaped_of_parse tracks_name hr
  rw [kinds_render, Expr.leaves_congr (fun _ _ => Operand.name?_congr) hs,
    (Expr.lexes_write h).kindsAt_eq hq 0] at hnames
  exact Expr.whole_of_names h (Nat.le_of_eq (congrArg List.length hnames.symm))

/-- The text of a clause's tree is a clause with the same tree exactly if the tree is faithful, as
long as the text of each of its floats, taken for itself, is a text of an equal number. -/
theorem exists_parse_render_iff_faithful (h : standard.parse clause = .ok r)
    (hf : ∀ x ∈ r.tree.leaves, x.readsBack = true) :
    (∃ r', standard.parse r.tree.render = .ok r' ∧ r'.tree.same r.tree = true) ↔
      r.tree.Faithful := by
  have hshape : r.tree.Shaped Operand.Readable false :=
    (shaped_of_parse tracks_string h).1.imp fun x hx l hp => hp.readable (hf x hx)
  constructor
  · rintro ⟨r', hr', hs⟩
    have hq := quotes_of_same hshape hr' hs
    have hw := whole_of_same hshape hr' hs hq
    obtain ⟨found, hfound, hiff⟩ := exists_parse_render hshape hq hw
    cases hr'.symm.trans hfound
    exact ⟨fun x hx => x.legible_iff.2 ⟨hq x hx, hw x hx⟩, hiff.1 hs⟩
  · rintro ⟨hl, hreg⟩
    obtain ⟨r', hr', hiff⟩ := exists_parse_render hshape (fun x hx => (x.legible_iff.1 (hl x hx)).1)
      fun x hx => (x.legible_iff.1 (hl x hx)).2
    exact ⟨r', hr', hiff.2 hreg⟩

/-- A tree that comes back, and one that does not: the float of the second clause is written as
`1e-5`, which is read as a difference. -/
theorem parse_render_between_and_small_float :
    (∃ r, standard.parse "NOT a BETWEEN -b AND 2.5 OR c IN (-1, 'x', (-))" = .ok r ∧
        ∃ r', standard.parse r.tree.render = .ok r' ∧ r'.tree.same r.tree = true) ∧
      ∃ r, standard.parse "a = 0.00001" = .ok r ∧
        ¬ ∃ r', standard.parse r.tree.render = .ok r' ∧ r'.tree.same r.tree = true := by
  constructor
  · obtain ⟨r, hr, hp⟩ : ∃ r, standard.parse "NOT a BETWEEN -b AND 2.5 OR c IN (-1, 'x', (-))" =
        .ok r ∧ (r.tree.leaves.all Operand.readsBack && decide r.tree.Faithful) = true :=
      exists_eq_ok_of_any (by decide +kernel)
    rw [Bool.and_eq_true_iff, List.all_eq_true, decide_eq_true_iff] at hp
    exact ⟨r, hr, (exists_parse_render_iff_faithful hr hp.1).2 hp.2⟩
  · obtain ⟨r, hr, hp⟩ : ∃ r, standard.parse "a = 0.00001" = .ok r ∧
        (r.tree.leaves.all Operand.readsBack && !decide r.tree.Faithful) = true :=
      exists_eq_ok_of_any (by decide +kernel)
    rw [Bool.and_eq_true_iff, List.all_eq_true, Bool.not_eq_true', decide_eq_false_iff_not] at hp
    exact ⟨r, hr, fun h => hp.2 ((exists_parse_render_iff_faithful hr hp.1).1 h)⟩

end Parser

end WhereClause
