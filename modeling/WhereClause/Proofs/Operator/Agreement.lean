import WhereClause.Proofs.Operator.Precedence
import WhereClause.Token.Basic

/-!
# Tables that agree on some operators

Two tables may have different tiers and still order some operators in the same way. Then the tiers
can be paired off from the tightest on, where tiers without any of these operators are passed over;
and two tables whose tiers pair off order them in the same way.

The operators that matter for a clause are those that its tokens name. Tables that differ only in
other operators and in empty tiers agree on them.
-/

namespace WhereClause

/-! ## Order of tiers -/

section Order

variable {tier : List Operator} {tiers rest : List (List Operator)} {op first second : Operator}

/-- The first tier that holds `first` comes before the first one that holds `second`. -/
def Precedes : List (List Operator) → Operator → Operator → Prop
  | [], _, _ => False
  | tier :: rest, first, second =>
    second ∉ tier ∧ (first ∈ tier ∧ second ∈ rest.flatten ∨ Precedes rest first second)

theorem Precedes.mem_flatten (h : Precedes tiers first second) :
    first ∈ tiers.flatten ∧ second ∈ tiers.flatten := by
  induction tiers with
  | nil => cases h
  | cons tier rest ih =>
    simp only [List.flatten_cons, List.mem_append]
    rcases h.2 with ⟨hf, hs⟩ | hr
    · exact ⟨.inl hf, .inr hs⟩
    · exact ⟨.inr (ih hr).1, .inr (ih hr).2⟩

theorem exists_findIdx?_iff :
    (∃ k, tiers.findIdx? (·.contains op) = some k) ↔ op ∈ tiers.flatten := by
  rw [← Option.isSome_iff_exists, List.findIdx?_isSome]
  simp

theorem findIdx?_of_mem (h : op ∈ tier) (rest : List (List Operator)) :
    (tier :: rest).findIdx? (·.contains op) = some 0 := by
  rw [List.findIdx?_cons, if_pos (List.contains_iff_mem.2 h)]

theorem findIdx?_of_not_mem (h : op ∉ tier) (rest : List (List Operator)) :
    (tier :: rest).findIdx? (·.contains op) = (rest.findIdx? (·.contains op)).map (· + 1) := by
  rw [List.findIdx?_cons, if_neg (mt List.contains_iff_mem.1 h)]

theorem precedes_iff : Precedes tiers first second ↔
    ∃ j k, tiers.findIdx? (·.contains first) = some j ∧
      tiers.findIdx? (·.contains second) = some k ∧ j < k := by
  induction tiers with
  | nil => simp [Precedes]
  | cons tier rest ih =>
    rw [Precedes]
    by_cases hs : second ∈ tier
    · rw [findIdx?_of_mem hs]
      simp [hs]
    by_cases hf : first ∈ tier
    · have hrest : Precedes rest first second → first ∈ tier ∧ second ∈ rest.flatten :=
        fun h => ⟨hf, h.mem_flatten.2⟩
      rw [or_iff_left_of_imp hrest, findIdx?_of_mem hf, findIdx?_of_not_mem hs,
        ← exists_findIdx?_iff]
      simp [hs, hf]
    · rw [findIdx?_of_not_mem hf, findIdx?_of_not_mem hs, ih]
      simp [hs, hf]

theorem OperatorTable.bindsTighter_iff_precedes {t : OperatorTable} :
    t.bindsTighter first second = true ↔ Precedes t.tiers first second := by
  rw [precedes_iff]
  unfold bindsTighter precedence?
  cases t.tiers.findIdx? (·.contains first) <;> cases t.tiers.findIdx? (·.contains second) <;> simp

theorem not_mem_of_nodup (hn : (tier :: rest).flatten.Nodup) (h : op ∈ rest.flatten) :
    op ∉ tier := by
  rw [List.flatten_cons, List.nodup_append] at hn
  exact fun ht => hn.2.2 op ht op h rfl

/-- Operators of later tiers are those that the first one does not hold. -/
theorem mem_rest_iff (hn : (tier :: rest).flatten.Nodup) :
    op ∈ rest.flatten ↔ op ∉ tier ∧ op ∈ (tier :: rest).flatten := by
  rw [List.flatten_cons, List.mem_append]
  constructor
  · exact fun h => ⟨not_mem_of_nodup hn h, .inr h⟩
  · exact fun h => h.2.resolve_left h.1

theorem precedes_rest_iff (hn : (tier :: rest).flatten.Nodup) :
    Precedes rest first second ↔ first ∉ tier ∧ Precedes (tier :: rest) first second := by
  constructor
  · intro h
    obtain ⟨hf, hs⟩ := h.mem_flatten
    exact ⟨not_mem_of_nodup hn hf, not_mem_of_nodup hn hs, .inr h⟩
  · rintro ⟨hf, -, ⟨ht, -⟩ | h⟩
    · exact absurd ht hf
    · exact h

end Order

/-! ## Tiers that pair off -/

section Pairs

variable {U : Operator → Prop} {tier tier' : List Operator} {ts us : List (List Operator)}
  {first second : Operator}

/-- The two lists hold the same operators, as far as `U` goes. -/
def SameOn (U : Operator → Prop) (ops ops' : List Operator) : Prop :=
  ∀ op, U op → (op ∈ ops ↔ op ∈ ops')

theorem SameOn.symm (h : SameOn U tier tier') : SameOn U tier' tier :=
  fun op hop => (h op hop).symm

theorem SameOn.contains_eq {op : Operator} (h : SameOn U tier tier') (hop : U op) :
    tier.contains op = tier'.contains op := by
  rw [Bool.eq_iff_iff, List.contains_iff_mem, List.contains_iff_mem, h op hop]

/-- The tiers hold the same operators and order them in the same way, as far as `U` goes. -/
structure SameOrder (U : Operator → Prop) (ts us : List (List Operator)) : Prop where
  mem : SameOn U ts.flatten us.flatten
  precedes : ∀ {first second}, U first → U second →
    (Precedes ts first second ↔ Precedes us first second)

theorem SameOrder.symm (h : SameOrder U ts us) : SameOrder U us ts :=
  ⟨h.mem.symm, fun hf hs => (h.precedes hf hs).symm⟩

/-- Tiers that hold the same operators pairwise, as far as `U` goes, but for tiers that hold
none. -/
inductive Aligned (U : Operator → Prop) : List (List Operator) → List (List Operator) → Prop
  | nil : Aligned U [] []
  | both {tier tier' : List Operator} {ts us : List (List Operator)} :
    SameOn U tier tier' → Aligned U ts us → Aligned U (tier :: ts) (tier' :: us)
  | left {tier : List Operator} {ts us : List (List Operator)} :
    SameOn U tier [] → Aligned U ts us → Aligned U (tier :: ts) us
  | right {tier : List Operator} {ts us : List (List Operator)} :
    SameOn U [] tier → Aligned U ts us → Aligned U ts (tier :: us)

/-- A tier without such operators has no part in their order. -/
theorem sameOrder_cons (h : SameOn U tier []) (ts : List (List Operator)) :
    SameOrder U (tier :: ts) ts := by
  have hnot {op : Operator} (hop : U op) : op ∉ tier := fun hm => by cases (h op hop).1 hm
  refine ⟨fun op hop => ?_, fun hf hs => ?_⟩
  · rw [List.flatten_cons, List.mem_append, or_iff_right (hnot hop)]
  · simp [Precedes, hnot hf, hnot hs]

theorem SameOrder.trans {vs : List (List Operator)} (h : SameOrder U ts us)
    (h' : SameOrder U us vs) : SameOrder U ts vs :=
  ⟨fun op hop => (h.mem op hop).trans (h'.mem op hop),
    fun hf hs => (h.precedes hf hs).trans (h'.precedes hf hs)⟩

theorem Aligned.sameOrder (h : Aligned U ts us) : SameOrder U ts us := by
  induction h with
  | nil => exact ⟨fun _ _ => .rfl, fun _ _ => .rfl⟩
  | @both tier tier' ts us hs _ ih =>
    refine ⟨fun op hop => ?_, fun hf hs' => ?_⟩
    · rw [List.flatten_cons, List.flatten_cons, List.mem_append, List.mem_append, hs op hop,
        ih.mem op hop]
    · rw [Precedes, Precedes, hs _ hf, hs _ hs', ih.mem _ hs', ih.precedes hf hs']
  | @left tier ts us hs _ ih => exact (sameOrder_cons hs ts).trans ih
  | @right tier ts us hs _ ih => exact ih.trans (sameOrder_cons hs.symm us).symm

namespace SameOrder

/-- If the first tiers hold the same operators, the later ones order them in the same way. -/
theorem rest (h : SameOrder U (tier :: ts) (tier' :: us)) (hs : SameOn U tier tier')
    (hn : (tier :: ts).flatten.Nodup) (hn' : (tier' :: us).flatten.Nodup) : SameOrder U ts us := by
  refine ⟨fun op hop => ?_, fun hf hs' => ?_⟩
  · rw [mem_rest_iff hn, mem_rest_iff hn', hs op hop, h.mem op hop]
  · rw [precedes_rest_iff hn, precedes_rest_iff hn', hs _ hf, h.precedes hf hs']

/-- What stands in the first tier is not preceded, so it stands in the other first tier. -/
theorem mem_first (h : SameOrder U (tier :: ts) (tier' :: us)) (hf : U first) (hs : U second)
    (hfirst : first ∈ tier) (hsecond : second ∈ tier') : first ∈ tier' := by
  by_contra hn
  have hmem : first ∈ (tier' :: us).flatten := (h.mem first hf).1 (List.mem_append_left _ hfirst)
  have hrest : first ∈ us.flatten := (List.mem_append.1 hmem).resolve_left hn
  exact ((h.precedes hs hf).2 ⟨hn, .inl ⟨hsecond, hrest⟩⟩).1 hfirst

theorem aligned_nil (h : SameOrder U [] us) : Aligned U [] us := by
  induction us with
  | nil => exact .nil
  | cons tier us ih =>
    have hs : SameOn U [] tier := fun op hop =>
      ⟨nofun, fun hm => (h.mem op hop).2 (List.mem_append_left _ hm)⟩
    exact .right hs (ih (h.trans (sameOrder_cons hs.symm us)))

/-- The tiers pair off: those that hold none of the operators are passed over, and the first others
hold the same ones. -/
theorem aligned (h : SameOrder U ts us) (hn : ts.flatten.Nodup) (hn' : us.flatten.Nodup) :
    Aligned U ts us := by
  induction ts generalizing us with
  | nil => exact h.aligned_nil
  | cons tier ts ih =>
    have hts : ts.flatten.Nodup := (List.nodup_append.1 hn).2.1
    by_cases hused : ∃ op ∈ tier, U op
    · obtain ⟨first, hfirst, hf⟩ := hused
      induction us with
      | nil => cases (h.mem first hf).1 (List.mem_append_left _ hfirst)
      | cons tier' us ihu =>
        have hus : us.flatten.Nodup := (List.nodup_append.1 hn').2.1
        by_cases hused' : ∃ op ∈ tier', U op
        · obtain ⟨second, hsecond, hs⟩ := hused'
          have hsame : SameOn U tier tier' := fun op hop =>
            ⟨fun hm => h.mem_first hop hs hm hsecond, fun hm => h.symm.mem_first hop hf hm hfirst⟩
          exact .both hsame (ih (h.rest hsame hn hn') hts hus)
        · have hnone : SameOn U [] tier' := fun op hop =>
            ⟨nofun, fun hm => (hused' ⟨op, hm, hop⟩).elim⟩
          exact .right hnone (ihu (h.trans (sameOrder_cons hnone.symm us)) hus)
    · have hnone : SameOn U tier [] := fun op hop => ⟨fun hm => (hused ⟨op, hm, hop⟩).elim, nofun⟩
      exact .left hnone (ih ((sameOrder_cons hnone ts).symm.trans h) hts hn')

end SameOrder

/-- Operators that `p` holds for may be picked out of the tiers, if these are all that matter. -/
theorem aligned_filter {p : Operator → Bool} (h : ∀ op ∈ ts.flatten, U op → p op = true) :
    Aligned U ts ((ts.map (List.filter p)).filter (!·.isEmpty)) := by
  induction ts with
  | nil => exact .nil
  | cons tier ts ih =>
    obtain ⟨htier, hts⟩ := List.forall_mem_append.1 h
    have hsame : SameOn U tier (tier.filter p) := fun op hop =>
      ⟨fun hm => List.mem_filter.2 ⟨hm, htier op hm hop⟩, fun hm => (List.mem_filter.1 hm).1⟩
    rw [List.map_cons, List.filter_cons]
    split
    · exact .both hsame (ih hts)
    · rename_i hempty
      have hnil : tier.filter p = [] := by simpa using hempty
      exact .left (hnil ▸ hsame) (ih hts)

end Pairs

/-! ## Operators that tokens name -/

/-- The words of the tokens that may name an operator. -/
def Token.words (tokens : List Token) : List String :=
  tokens.filterMap Token.word?

namespace OperatorTable

variable {t u : OperatorTable} {tokens : List Token} {op first second : Operator}

/-- The operators that the table has for words of the tokens. -/
def found (t : OperatorTable) (tokens : List Token) : List Operator :=
  (Token.words tokens).filterMap t.get?

/-- The operators that the tokens may be. With a subtraction comes the prefix minus. -/
def used (t : OperatorTable) (tokens : List Token) : List Operator :=
  if .subtract ∈ t.found tokens then .negate :: t.found tokens else t.found tokens

theorem mem_found_iff :
    op ∈ t.found tokens ↔ ∃ word ∈ Token.words tokens, t.get? word = some op :=
  List.mem_filterMap

theorem mem_used_of_get? {word : String} (hw : word ∈ Token.words tokens)
    (hg : t.get? word = some op) : op ∈ t.used tokens := by
  have hfound : op ∈ t.found tokens := mem_found_iff.2 ⟨word, hw, hg⟩
  unfold used
  split
  · exact List.mem_cons_of_mem _ hfound
  · exact hfound

theorem negate_mem_used {word : String} (hw : word ∈ Token.words tokens)
    (hg : t.get? word = some .subtract) : .negate ∈ t.used tokens := by
  rw [used, if_pos (mem_found_iff.2 ⟨word, hw, hg⟩)]
  exact List.mem_cons_self

theorem mem_used (h : op ∈ t.used tokens) :
    op ∈ t.found tokens ∨ op = .negate ∧ .subtract ∈ t.found tokens := by
  unfold used at h
  split at h
  · rename_i hs
    exact (List.mem_cons.1 h).symm.imp id fun ho => ⟨ho, hs⟩
  · exact .inl h

theorem mem_tiers_of_mem_used (h : op ∈ t.used tokens) : op ∈ t.tiers.flatten := by
  rcases mem_used h with hf | ⟨rfl, hs⟩
  · obtain ⟨word, -, hg⟩ := mem_found_iff.1 hf
    exact mem_tiers_of_get? hg
  · obtain ⟨word, -, hg⟩ := mem_found_iff.1 hs
    exact mem_tiers_flatten_iff.2 (.inl (negation?_of_get? hg))

/-- Of two operators of the table, one binds at least as tightly as the other if this one does not
bind tighter. -/
theorem bindsTighterOrEqual_eq_not (hf : first ∈ t.tiers.flatten) (hs : second ∈ t.tiers.flatten) :
    t.bindsTighterOrEqual first second = !t.bindsTighter second first := by
  obtain ⟨j, hj⟩ := mem_tiers_iff_exists_tier.1 hf
  obtain ⟨k, hk⟩ := mem_tiers_iff_exists_tier.1 hs
  rw [Bool.eq_iff_iff, Bool.not_eq_true', ← Bool.not_eq_true, bindsTighterOrEqual_iff hj hk,
    bindsTighter_iff hk hj]
  omega

/-! ## Agreement on tokens -/

/-- The tables have the same operators for the words of the tokens, and order them in the same
way. -/
structure AgreeOn (t u : OperatorTable) (tokens : List Token) : Prop where
  get : ∀ word ∈ Token.words tokens, t.get? word = u.get? word
  tighter : ∀ first ∈ t.used tokens, ∀ second ∈ t.used tokens,
    t.bindsTighter first second = u.bindsTighter first second

instance : Decidable (AgreeOn t u tokens) :=
  decidable_of_iff (_ ∧ _) ⟨fun h => ⟨h.1, h.2⟩, fun h => ⟨h.1, h.2⟩⟩

theorem used_eq (h : ∀ word ∈ Token.words tokens, t.get? word = u.get? word) :
    t.used tokens = u.used tokens := by
  rw [used, used, found, found, List.filterMap_congr h]

namespace AgreeOn

theorem bindsTighterOrEqual_eq (h : AgreeOn t u tokens) (hf : first ∈ t.used tokens)
    (hs : second ∈ t.used tokens) :
    t.bindsTighterOrEqual first second = u.bindsTighterOrEqual first second := by
  have hu {op : Operator} (hop : op ∈ t.used tokens) : op ∈ u.tiers.flatten :=
    mem_tiers_of_mem_used (used_eq h.get ▸ hop)
  rw [bindsTighterOrEqual_eq_not (mem_tiers_of_mem_used hf) (mem_tiers_of_mem_used hs),
    bindsTighterOrEqual_eq_not (hu hf) (hu hs), h.tighter _ hs _ hf]

theorem aligned (h : AgreeOn t u tokens) : Aligned (· ∈ t.used tokens) t.tiers u.tiers := by
  refine SameOrder.aligned ⟨fun op hop => ?_, fun hf hs => ?_⟩ nodup_tiers nodup_tiers
  · exact iff_of_true (mem_tiers_of_mem_used hop) (mem_tiers_of_mem_used (used_eq h.get ▸ hop))
  · rw [← bindsTighter_iff_precedes, ← bindsTighter_iff_precedes, h.tighter _ hf _ hs]

end AgreeOn

/-! ## Operators that make no difference -/

/-- Whether a word of the tokens names the operator. -/
def isNamed (tokens : List Token) (op : Operator) : Bool :=
  (Token.words tokens).any fun word => Text.upper op.symbol == Text.upper word

/-- The configured tiers without the operators that no token names, and then without empty tiers. -/
def namedTiers (t : OperatorTable) (tokens : List Token) : List (List Operator) :=
  (t.configured.map (List.filter (isNamed tokens))).filter (!·.isEmpty)

theorem flatten_namedTiers (t : OperatorTable) (tokens : List Token) :
    (t.namedTiers tokens).flatten = t.configured.flatten.filter (isNamed tokens) := by
  rw [namedTiers, List.flatten_filter_not_isEmpty, List.filter_flatten]

theorem get?_eq_find? {word : String} (hw : word ∈ Token.words tokens) :
    t.get? word = (t.namedTiers tokens).flatten.find? fun op =>
      Text.upper op.symbol == Text.upper word := by
  rw [flatten_namedTiers, List.find?_filter, get?]
  congr 1
  funext op
  have hnamed : (Text.upper op.symbol == Text.upper word) = true → isNamed tokens op = true :=
    fun h => List.any_eq_true.2 ⟨word, hw, h⟩
  rw [Bool.eq_iff_iff, decide_eq_true_eq]
  exact ⟨fun h => ⟨hnamed h, h⟩, And.right⟩

theorem isNamed_of_mem_found (h : op ∈ t.found tokens) : isNamed tokens op = true := by
  obtain ⟨word, hw, hg⟩ := mem_found_iff.1 h
  have hname := List.find?_some hg
  exact List.any_eq_true.2 ⟨word, hw, hname⟩

theorem aligned_namedTiers (t : OperatorTable) (tokens : List Token) :
    Aligned (· ∈ t.used tokens) t.tiers ([.negate] :: t.namedTiers tokens) := by
  refine .both (fun op hop => ?_) (aligned_filter fun op hm hop => ?_)
  · rw [Option.mem_toList, List.mem_singleton]
    refine ⟨eq_negate_of_negation?, ?_⟩
    rintro rfl
    exact (mem_tiers_flatten_iff.1 (mem_tiers_of_mem_used hop)).resolve_right t.negate_not_mem
  · rcases mem_used hop with hf | ⟨rfl, -⟩
    · exact isNamed_of_mem_found hf
    · exact absurd hm t.negate_not_mem

/-- Tables that differ only in empty tiers and in operators that the tokens do not name agree. -/
theorem agreeOn_of_namedTiers (h : t.namedTiers tokens = u.namedTiers tokens) :
    AgreeOn t u tokens := by
  have hget : ∀ word ∈ Token.words tokens, t.get? word = u.get? word := fun word hw => by
    rw [get?_eq_find? hw, get?_eq_find? hw, h]
  refine ⟨hget, fun first hf second hs => ?_⟩
  have ht := (aligned_namedTiers t tokens).sameOrder
  have hu := (aligned_namedTiers u tokens).sameOrder
  rw [← used_eq hget] at hu
  rw [h] at ht
  rw [Bool.eq_iff_iff, bindsTighter_iff_precedes, bindsTighter_iff_precedes]
  exact (ht.trans hu.symm).precedes hf hs

end OperatorTable

end WhereClause
