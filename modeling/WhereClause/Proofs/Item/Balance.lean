import WhereClause.Item.Tagging
import WhereClause.Proofs.Operator.Precedence
import WhereClause.Result

/-!
# Parentheses of items

The items of a clause are balanced: each opening item has a closing partner, and the outermost pair
is the one that stands for the clause itself. The operators among them are those of the table.

What a single token can do to the items is said once, by `Tagging.Move`; the invariant of a whole
reading follows from it.
-/

namespace WhereClause

/-! ## Balanced items -/

namespace Item

/-- Whether the item is no parenthesis. -/
def isLeaf : Item → Bool
  | .opening _ => false
  | .closing _ => false
  | _ => true

/-- Whether an operand begins with the item. -/
def beginsOperand : Item → Bool
  | .opening _ => true
  | .operand _ _ => true
  | .list _ _ => true
  | .operator op _ => op.isPrefix
  | _ => false

/-- An operator item is one of the table. -/
def Known (t : OperatorTable) : Item → Prop
  | .operator op _ => op ∈ t.tiers.flatten
  | _ => True

/-- Items in which each parenthesis has its partner. -/
inductive Balanced : List Item → Prop
  | nil : Balanced []
  | leaf {item : Item} {w : List Item} : item.isLeaf → Balanced w → Balanced (item :: w)
  | group {start stop : Span} {u w : List Item} :
    Balanced u → Balanced w → Balanced (.opening start :: u ++ .closing stop :: w)

theorem Balanced.append {u w : List Item} (hu : Balanced u) (hw : Balanced w) :
    Balanced (u ++ w) := by
  induction hu with
  | nil => exact hw
  | leaf hl _ ih => exact .leaf hl ih
  | group hv _ _ ih =>
    simp only [List.cons_append, List.append_assoc]
    exact .group hv ih

theorem Balanced.push {w : List Item} (hw : Balanced w) {item : Item} (hl : item.isLeaf) :
    Balanced (w ++ [item]) :=
  hw.append (.leaf hl .nil)

/-- Items after the beginning of a clause, with `depth` parentheses open. -/
inductive Nested : Nat → List Item → Prop
  | clause {w : List Item} : Balanced w → Nested 0 (.opening (.point 0) :: w)
  | opening {depth : Nat} {span : Span} {u w : List Item} :
    Nested depth u → Balanced w → Nested (depth + 1) (u ++ .opening span :: w)

namespace Nested

variable {depth : Nat} {w : List Item}

theorem append (h : Nested depth w) {v : List Item} (hv : Balanced v) :
    Nested depth (w ++ v) := by
  cases h with
  | clause hw => exact .clause (hw.append hv)
  | opening hu hw =>
    rw [List.append_assoc]
    exact .opening hu (hw.append hv)

theorem close (h : Nested (depth + 1) w) (stop : Span) :
    Nested depth (w ++ [.closing stop]) := by
  cases h with
  | opening hu hw =>
    rw [List.append_assoc]
    exact hu.append (.group hw .nil)

end Nested

end Item

/-! ## One token -/

namespace Tagging

/-- What reading a token can do to the items and the open parentheses. -/
inductive Move (t : OperatorTable) (state : Tagging) : Tagging → Prop
  /-- The token goes into a literal list. -/
  | capture {state' : Tagging} :
    state'.items = state.items → state'.groups = state.groups → Move t state state'
  /-- The token is, or completes, an item that is no parenthesis. -/
  | leaf {state' : Tagging} {item : Item} : state'.items = item :: state.items →
    state'.groups = state.groups → item.isLeaf → item.Known t → Move t state state'
  /-- The token opens a parenthesis. -/
  | opening {state' : Tagging} {span : Span} : state'.items = .opening span :: state.items →
    state'.groups = ⟨span, state.waiting⟩ :: state.groups → Move t state state'
  /-- The token closes a parenthesis. -/
  | closing {state' : Tagging} {span : Span} {group : OpenGroup} :
    state'.items = .closing span :: state.items → state.groups = group :: state'.groups →
      Move t state state'

variable {t : OperatorTable} {state state' : Tagging} {token : Token}

theorem mem_tiers_of_operatorAt? {word : String} {op : Operator}
    (h : operatorAt? t state word = some op) : op ∈ t.tiers.flatten := by
  obtain ⟨found, hf, rfl⟩ := Option.map_eq_some_iff.1 h
  split
  · rename_i hs
    have hm : t.configured.flatten.contains .subtract = true := by
      simpa [hs.1] using List.mem_of_find?_eq_some hf
    simp only [OperatorTable.mem_tiers_flatten_iff, OperatorTable.negation?, hm]
    simp
  · exact OperatorTable.mem_tiers_of_get? hf

theorem move_readWord (word : String) (span : Span) :
    Move t state (readWord t state word span) := by
  unfold readWord
  split
  · exact .leaf rfl rfl rfl trivial
  · split
    · exact .leaf rfl rfl rfl trivial
    · rename_i ho
      exact .leaf rfl rfl rfl (mem_tiers_of_operatorAt? ho)
    · rename_i ho
      exact .leaf rfl rfl rfl (mem_tiers_of_operatorAt? ho)

theorem move_readToken (h : readToken t state token = .ok state') : Move t state state' := by
  unfold readToken at h
  split at h
  · cases h
    exact .leaf rfl rfl rfl trivial
  · split at h
    · cases h
      exact .capture rfl rfl
    · cases h
      exact .opening rfl rfl
  · unfold readClosing at h
    split at h
    · cases h
    · rename_i hg
      cases h
      exact .closing rfl hg
  all_goals
    cases h
    exact move_readWord _ _

theorem move_readListToken (capture : Capture) :
    Move t state (readListToken state capture token) := by
  unfold readListToken
  split
  · exact .capture rfl rfl
  · dsimp only
    split
    · exact .leaf rfl rfl rfl trivial
    · exact .capture rfl rfl
  · exact .capture rfl rfl

theorem move_step (h : step t state token = .ok state') : Move t state state' := by
  unfold step at h
  split at h
  · cases h
    exact move_readListToken _
  · exact move_readToken h

/-! ## All tokens -/

/-- The items so far are nested as deep as there are open parentheses, and their operators are
those of the table. -/
structure NestedAndKnown (t : OperatorTable) (state : Tagging) : Prop where
  nested : Item.Nested state.groups.length state.items.reverse
  known : ∀ item ∈ state.items, item.Known t

theorem nestedAndKnown_initial (t : OperatorTable) : NestedAndKnown t initial :=
  ⟨.clause .nil, by simp [initial, Item.Known]⟩

theorem NestedAndKnown.step (hi : NestedAndKnown t state) (h : Move t state state') :
    NestedAndKnown t state' := by
  obtain ⟨hn, hk⟩ := hi
  cases h with
  | capture hs hg => exact ⟨by rwa [hs, hg], by rwa [hs]⟩
  | leaf hs hg hl hkn =>
    refine ⟨?_, by simpa [hs] using ⟨hkn, hk⟩⟩
    rw [hs, hg, List.reverse_cons]
    exact hn.append (.leaf hl .nil)
  | opening hs hg =>
    refine ⟨?_, by simpa [hs, Item.Known] using hk⟩
    rw [hs, hg, List.reverse_cons]
    exact .opening hn .nil
  | closing hs hg =>
    refine ⟨?_, by simpa [hs, Item.Known] using hk⟩
    rw [hg] at hn
    rw [hs, List.reverse_cons]
    exact hn.close _

theorem nestedAndKnown_foldlM {tokens : List Token} (hi : NestedAndKnown t state)
    (h : tokens.foldlM (Tagging.step t) state = .ok state') : NestedAndKnown t state' :=
  foldlM_preserves (fun hi hs => hi.step (move_step hs)) hi h

end Tagging

/-! ## Items of a clause -/

/-- The items of a clause are balanced between the opening and the closing item of the clause, and
their operators are those of the table. -/
theorem Item.balanced_of_ofTokens {t : OperatorTable} {length : Nat} {tokens : List Token}
    {items : List Item} (h : Item.ofTokens t length tokens = .ok items) :
    ∃ body, items = .opening (.point 0) :: body ++ [.closing (.point length)] ∧
      Balanced body ∧ ∀ item ∈ body, item.Known t := by
  obtain ⟨state, hs, hf⟩ := bind_eq_ok_iff.1 h
  obtain ⟨hn, hk⟩ := Tagging.nestedAndKnown_foldlM (Tagging.nestedAndKnown_initial t) hs
  unfold Tagging.finish at hf
  split at hf
  · cases hf
  · cases hf
  · rename_i hg
    cases hf
    rw [hg] at hn
    generalize hr : state.items.reverse = w at hn
    cases hn with
    | clause hw =>
      refine ⟨_, by simp [Tagging.push, hr], hw, fun item hm => hk item ?_⟩
      rw [← List.mem_reverse, hr]
      exact List.mem_cons_of_mem _ hm

end WhereClause
