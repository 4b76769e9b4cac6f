import Mathlib.Data.List.GetD
import Mathlib.Data.List.Nodup
import WhereClause.Operator.Table

/-!
# Tiers and precedence

No operator stands in two tiers of a table, so the precedence of an operator is the only tier that
holds it, and the two comparisons of a table compare the numbers of tiers.
-/

namespace WhereClause.OperatorTable

variable (t : OperatorTable)

/-- The operators of tier `k`; a tier that the table does not have is empty. -/
def tier (k : Nat) : List Operator :=
  t.tiers.getD k []

variable {t}

/-! ## Operators of a table -/

theorem mem_tiers_flatten_iff {op : Operator} :
    op ∈ t.tiers.flatten ↔ t.negation? = some op ∨ op ∈ t.configured.flatten := by
  simp [tiers]

theorem eq_negate_of_negation? {op : Operator} (h : t.negation? = some op) : op = .negate := by
  unfold negation? at h
  split at h
  · exact (Option.some.inj h).symm
  · cases h

theorem nodup_tiers : t.tiers.flatten.Nodup := by
  rw [tiers, List.flatten_cons, List.nodup_append]
  refine ⟨?_, t.nodup, fun a ha b hb he => ?_⟩
  · cases t.negation? <;> simp
  · obtain rfl := eq_negate_of_negation? (Option.mem_toList.1 ha)
    exact t.negate_not_mem (he ▸ hb)

/-- Among the operators of a table only `BETWEEN` has three operands. -/
theorem eq_between_of_mem_tiers {op : Operator} (h : op ∈ t.tiers.flatten)
    (ht : op.arity = .ternary) : op = .between := by
  rcases mem_tiers_flatten_iff.1 h with h | h
  · obtain rfl := eq_negate_of_negation? h
    cases ht
  · exact t.eq_between op h ht

theorem mem_tiers_of_get? {word : String} {op : Operator} (h : t.get? word = some op) :
    op ∈ t.tiers.flatten :=
  mem_tiers_flatten_iff.2 (.inr (List.mem_of_find?_eq_some h))

theorem negation?_of_get? {word : String} (h : t.get? word = some .subtract) :
    t.negation? = some .negate := by
  unfold negation?
  rw [if_pos]
  simpa using List.mem_of_find?_eq_some h

/-! ## The tier of an operator -/

theorem lt_of_mem_tier {op : Operator} {k : Nat} (h : op ∈ t.tier k) : k < t.tiers.length := by
  by_contra hk
  rw [tier, List.getD_eq_default _ _ (by omega)] at h
  cases h

theorem tier_eq_getElem {k : Nat} (h : k < t.tiers.length) : t.tier k = t.tiers[k] :=
  List.getD_eq_getElem _ _ h

theorem mem_tiers_iff_exists_tier {op : Operator} :
    op ∈ t.tiers.flatten ↔ ∃ k, op ∈ t.tier k := by
  constructor
  · intro h
    obtain ⟨l, hl, ho⟩ := List.mem_flatten.1 h
    obtain ⟨k, hk, rfl⟩ := List.getElem_of_mem hl
    exact ⟨k, by rwa [tier_eq_getElem hk]⟩
  · rintro ⟨k, h⟩
    have hk := lt_of_mem_tier h
    rw [tier_eq_getElem hk] at h
    exact List.mem_flatten.2 ⟨_, List.getElem_mem hk, h⟩

theorem arity_eq_binary {op : Operator} {k : Nat} (h : op ∈ t.tier k) (hp : ¬ op.isPrefix)
    (hb : op ≠ .between) : op.arity = .binary := by
  cases ha : op.arity with
  | unary => exact absurd (by simp [Operator.isPrefix, ha]) hp
  | binary => rfl
  | ternary => exact absurd (eq_between_of_mem_tiers (mem_tiers_iff_exists_tier.2 ⟨k, h⟩) ha) hb

/-- An operator stands in one tier only. -/
theorem tier_unique {op : Operator} {j k : Nat} (hj : op ∈ t.tier j) (hk : op ∈ t.tier k) :
    j = k := by
  have hd := (List.nodup_flatten.1 (nodup_tiers (t := t))).2
  rw [List.pairwise_iff_getElem] at hd
  have hjl := lt_of_mem_tier hj
  have hkl := lt_of_mem_tier hk
  rw [tier_eq_getElem hjl] at hj
  rw [tier_eq_getElem hkl] at hk
  rcases Nat.lt_trichotomy j k with h | h | h
  · exact absurd hk (hd j k hjl hkl h hj)
  · exact h
  · exact absurd hj (hd k j hkl hjl h hk)

theorem precedence?_eq_some_iff {op : Operator} {k : Nat} :
    t.precedence? op = some k ↔ op ∈ t.tier k := by
  unfold precedence?
  rw [List.findIdx?_eq_some_iff_getElem]
  constructor
  · rintro ⟨h, ho, -⟩
    rw [tier_eq_getElem h]
    simpa using ho
  · intro h
    have hk := lt_of_mem_tier h
    refine ⟨hk, by rw [← tier_eq_getElem hk]; simpa using h, fun j hj ho => ?_⟩
    have hm : op ∈ t.tier j := by
      rw [tier_eq_getElem (by omega)]
      simpa using ho
    have := tier_unique hm h
    omega

/-! ## Comparisons -/

theorem bindsTighter_iff {first second : Operator} {j k : Nat} (hj : first ∈ t.tier j)
    (hk : second ∈ t.tier k) : t.bindsTighter first second = true ↔ j < k := by
  simp [bindsTighter, precedence?_eq_some_iff.2 hj, precedence?_eq_some_iff.2 hk]

theorem bindsTighterOrEqual_iff {first second : Operator} {j k : Nat} (hj : first ∈ t.tier j)
    (hk : second ∈ t.tier k) : t.bindsTighterOrEqual first second = true ↔ j ≤ k := by
  simp [bindsTighterOrEqual, precedence?_eq_some_iff.2 hj, precedence?_eq_some_iff.2 hk]

end WhereClause.OperatorTable
