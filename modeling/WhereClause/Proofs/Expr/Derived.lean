import WhereClause.Proofs.Item.Lineage
import WhereClause.Proofs.Strategies

/-!
# Trees of clauses

The tree of a clause has the operands of its tokens as leaves, and it has the shape `Expr.Shaped`: a
literal list stands at the beginning of the right side of an `IN` only, so whatever else is in the
tree has been read outside of such lists.
-/

namespace WhereClause

open Grammar

namespace Grammar.Derives

variable {c : Category} {w : List Item} {e : Expr}

/-! ## Leaves -/

/-- The leaves of a tree are the operands of its items. -/
theorem leaves_eq {t : OperatorTable} (h : Derives t c w e) :
    e.leaves = w.flatMap Item.leaves := by
  induction h with
  | operand => rfl
  | list => rw [Expr.leaves_list, Element.toExprs_eq, List.flatMap_map]; simp [Item.leaves]; rfl
  | empty => rfl
  | group _ ih => simpa [Item.leaves] using ih
  | bare _ ih => exact ih
  | unary _ _ _ ih => simpa [Expr.leaves_operation, Item.leaves] using ih
  | single _ ih => exact ih
  | @binary k op span u w x y e _ _ _ _ hb ihx ihy =>
    have he : e.leaves = x.leaves ++ y.leaves := by
      unfold Expr.binary? at hb
      split at hb
      · split at hb
        · cases hb
          simp [Expr.leaves_operation]
        · cases hb
      · cases hb
        rw [Expr.leaves_list, List.flatMap_append, Expr.flatMap_leaves_elements,
          Expr.flatMap_leaves_elements]
      · cases hb
        simp [Expr.leaves_operation]
    rw [he, ihx, ihy]
    simp [Item.leaves]
  | between _ _ _ _ ihx ihl ihh =>
    rw [Expr.leaves_operation]
    simp [ihx, ihl, ihh, Item.leaves]

/-! ## Shapes -/

/-- The items begin with a literal list. -/
def StartsListed (w : List Item) : Prop :=
  ∃ elements span rest, w = .list elements span :: rest

/-- Where no `IN` stands before the items, they do not begin with a literal list. -/
theorem not_startsListed {w : List Item} {item : Item} (hne : ∀ span, item ≠ .operator .isIn span)
    (hc : (item :: w).IsChain Item.Follows) : ¬ StartsListed w := by
  rintro ⟨elements, span, rest, rfl⟩
  obtain ⟨span', hs⟩ := (List.isChain_cons_cons.1 hc).1 elements span rfl
  exact hne span' hs

theorem startsListed_append {u v : List Item} (hu : u ≠ []) :
    StartsListed (u ++ v) ↔ StartsListed u := by
  cases u with
  | nil => exact absurd rfl hu
  | cons item u => simp [StartsListed]

/-- The tree of sound items has the shape of a tree outside of the lists after `IN`, unless the
items begin with such a list. -/
theorem shaped (h : Derives .standard c w e) (hs : ∀ item ∈ w, item.Sound)
    (hc : w.IsChain Item.Follows) (listed : Bool) (hl : StartsListed w → listed = true) :
    Expr.Shaped Operand.Parsed listed e := by
  have htier {op : Operator} {k : Nat} (hm : op ∈ OperatorTable.standard.tier k) :
      op ∈ OperatorTable.standard.tiers.flatten :=
    OperatorTable.mem_tiers_iff_exists_tier.2 ⟨k, hm⟩
  induction h generalizing listed with
  | @operand x span =>
    have hx : x.Parsed false := hs (.operand x span) (by simp)
    cases listed with
    | false => exact .operand hx
    | true => exact .operand hx.loosen
  | @list elements span =>
    obtain rfl := hl ⟨elements, span, [], rfl⟩
    exact hs (.list elements span) (by simp)
  | empty => exact .list (by simp) (by simp) (by simp)
  | @group start stop w e _ ih =>
    have hw : (.opening start :: w).IsChain Item.Follows := hc.left_of_append
    exact ih (fun item hi => hs item (by simp [hi])) hw.tail listed fun h =>
      absurd h (not_startsListed (by simp) hw)
  | bare _ ih => exact ih hs hc listed hl
  | @unary k op span w e hm hp _ ih =>
    have hin : op ≠ .isIn := by
      rintro rfl
      cases hp
    have hcomma : op ≠ .comma := by
      rintro rfl
      cases hp
    have he := ih (fun item hi => hs item (by simp [hi])) hc.tail listed fun h =>
      absurd h (not_startsListed (by simpa using hin) hc)
    have harity : op.arity = .unary := by simpa [Operator.isPrefix] using hp
    exact .operation (htier hm) hin hcomma (by rw [harity]; rfl) (by simpa using he)
  | single _ ih => exact ih hs hc listed hl
  | @binary k op span u w x y e hm hb hu _ he ihx ihy =>
    have hcu := hc.left_of_append
    have hcw := hc.right_of_append
    have hx := ihx (fun item hi => hs item (by simp [hi])) hcu listed fun h =>
      hl ((startsListed_append hu.ne_nil).2 h)
    have hy := ihy (fun item hi => hs item (by simp [hi])) hcw.tail
    unfold Expr.binary? at he
    split at he
    · split at he
      · rename_i hlist
        cases he
        cases y with
        | list items => exact .isIn hx (hy true fun _ => rfl)
        | _ => cases hlist
      · cases he
    · cases he
      exact hx.join fun l => hy l fun h => absurd h (not_startsListed (by simp) hcw)
    · rename_i hin hcomma
      cases he
      have hy' := hy listed fun h => absurd h (not_startsListed (by simpa using hin) hcw)
      exact .operation (htier hm) hin hcomma (by rw [hb]; rfl) (by simpa using ⟨hx, hy'⟩)
  | @between k span stop u v w x low high hm hu _ _ ihx ihl ihh =>
    have hcl := hc.left_of_append
    have hch := hc.right_of_append
    have hx := ihx (fun item hi => hs item (by simp [hi])) hcl.left_of_append listed fun h =>
      hl (by rw [List.append_assoc]; exact (startsListed_append hu.ne_nil).2 h)
    have hlow := ihl (fun item hi => hs item (by simp [hi])) hcl.right_of_append.tail listed
      fun h => absurd h (not_startsListed (by simp) hcl.right_of_append)
    have hhigh := ihh (fun item hi => hs item (by simp [hi])) hch.tail listed
      fun h => absurd h (not_startsListed (by simp) hch)
    exact .operation (htier hm) (by simp) (by simp) rfl (by simpa using ⟨hx, hlow, hhigh⟩)

end Grammar.Derives

/-! ## Clauses -/

namespace Parser

variable {β : Type} {f : Token.Kind → Option β} {g : Operand → Option β} {clause : String}
  {r : Parsed}

/-- The tree of a clause has the shape of a tree outside of the lists after `IN`, and its leaves
show what the tokens show. -/
theorem shaped_of_parse (hT : Tracks f g) (h : standard.parse clause = .ok r) :
    r.tree.Shaped Operand.Parsed false ∧
      r.tree.leaves.filterMap g = ((standard.tokenize clause).map Token.kind).filterMap f := by
  obtain ⟨items, x, hi, hx, rfl⟩ := parse_eq_ok_iff.1 h
  obtain ⟨body, rfl, hb, -⟩ := Item.balanced_of_ofTokens hi
  have hd := (Phrase.isClause_of_ofItems hb hx).1.2
  obtain ⟨hs, hc, hl⟩ := Item.sound_of_ofTokens hT
    (fun t ht => (Lexicon.lexical_tokenize clause t ht).proper) hi
  refine ⟨hd.shaped hs hc false ?_, ?_⟩
  · rintro ⟨elements, span, rest, he⟩
    cases he
  · rw [hd.leaves_eq, hl]
    rfl

end Parser

end WhereClause
