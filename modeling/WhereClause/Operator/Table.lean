import WhereClause.Operator.Tier
import WhereClause.Result

/-!
# Operator tables

A table lists operators by precedence, in tiers numbered from the one that binds tightest. The
prefix minus has tier 0 to itself; it is there exactly if subtraction is configured. The configured
tiers follow.

No operator occurs twice in a table, and only `BETWEEN` has three operands.
-/

namespace WhereClause

/-- Operators by precedence. -/
structure OperatorTable where
  /-- The configured operators, those that bind tightest first. -/
  configured : List (List Operator)
  /-- No operator occurs twice. -/
  nodup : configured.flatten.Nodup
  /-- The prefix minus is not configured. -/
  negate_not_mem : .negate ∉ configured.flatten
  /-- Only `BETWEEN` has three operands. -/
  eq_between : ∀ op ∈ configured.flatten, op.arity = .ternary → op = .between

namespace OperatorTable

/-! ## Look-up -/

variable (t : OperatorTable)

/-- The prefix minus, if there is a subtraction. -/
def negation? : Option Operator :=
  if t.configured.flatten.contains .subtract then some .negate else none

/-- All tiers, from the one of the prefix minus on. -/
def tiers : List (List Operator) :=
  t.negation?.toList :: t.configured

/-- The operator that a word names, in any case. -/
def get? (word : String) : Option Operator :=
  t.configured.flatten.find? fun op => Text.upper op.symbol == Text.upper word

/-- The tier of an operator. -/
def precedence? (op : Operator) : Option Nat :=
  t.tiers.findIdx? (·.contains op)

/-- Whether `first` has a smaller tier than `second`, both being in the table. -/
def bindsTighter (first second : Operator) : Bool :=
  match t.precedence? first, t.precedence? second with
  | some a, some b => a < b
  | _, _ => false

/-- Whether the tier of `first` is at most that of `second`, both being in the table. -/
def bindsTighterOrEqual (first second : Operator) : Bool :=
  match t.precedence? first, t.precedence? second with
  | some a, some b => a ≤ b
  | _, _ => false

/-- The table of the built-in operators. -/
def standard : OperatorTable where
  configured := Operator.standardTiers
  nodup := by decide
  negate_not_mem := by decide
  eq_between := by decide

instance : Inhabited OperatorTable := ⟨standard⟩

/-! ## Tables of configured tiers -/

/-- Reads the entries of a tier. `seen` are the upper-case names met so far; the result holds the
operators and the names met after them. -/
def readTier (seen : List String) :
    List (String × Arity) → Except ConfigError (List Operator × List String)
  | [] => .ok ([], seen)
  | (name, arity) :: rest =>
    if name.isEmpty then
      .error .emptySymbol
    else if seen.contains (Text.upper name) then
      .error (.duplicateOperator name)
    else do
      let op ← Operator.ofEntry (Text.upper name) arity
      let (ops, seen) ← readTier (Text.upper name :: seen) rest
      .ok (op :: ops, seen)

/-- Reads tiers in order. -/
def readTiers (seen : List String) : List Tier → Except ConfigError (List (List Operator))
  | [] => .ok []
  | tier :: rest => do
    let (ops, seen) ← readTier seen tier.entries
    let tiers ← readTiers seen rest
    .ok (ops :: tiers)

/-- What reading keeps: the operators have distinct texts that were not seen before, the prefix
minus is not among them, and only `BETWEEN` has three operands. -/
structure Fresh (seen : List String) (ops : List Operator) : Prop where
  /-- The texts are distinct. -/
  nodup : (ops.map Operator.symbol).Nodup
  /-- No text was seen before. -/
  unseen : ∀ op ∈ ops, op.symbol ∉ seen
  /-- The prefix minus is not among them. -/
  ne_negate : ∀ op ∈ ops, op ≠ .negate
  /-- Only `BETWEEN` has three operands. -/
  eq_between : ∀ op ∈ ops, op.arity = .ternary → op = .between

theorem fresh_of_readTier {seen after : List String} {entries : List (String × Arity)}
    {ops : List Operator} (h : readTier seen entries = .ok (ops, after)) :
    Fresh seen ops ∧ ∀ s, s ∈ after ↔ s ∈ seen ∨ s ∈ ops.map Operator.symbol := by
  induction entries generalizing seen ops after with
  | nil =>
    cases h
    exact ⟨⟨by simp, by simp, by simp, by simp⟩, by simp⟩
  | cons e rest ih =>
    rw [readTier] at h
    split at h
    · cases h
    · split at h
      · cases h
      · rename_i hs
        obtain ⟨op, ho, h⟩ := bind_eq_ok_iff.1 h
        obtain ⟨⟨ops', after'⟩, hr, h⟩ := bind_eq_ok_iff.1 h
        cases h
        obtain ⟨hf, ha⟩ := ih hr
        have hn := Operator.symbol_of_ofEntry (Text.asciiUpper_upper _) ho
        refine ⟨⟨?_, ?_, ?_, ?_⟩, fun s => ?_⟩
        · refine List.nodup_cons.2 ⟨fun hm => ?_, hf.nodup⟩
          obtain ⟨p, hp, hq⟩ := List.mem_map.1 hm
          exact hf.unseen p hp (by simp [hq, hn])
        · intro p hp
          rcases List.mem_cons.1 hp with rfl | hp
          · simpa [hn] using hs
          · exact fun hm => hf.unseen p hp (List.mem_cons_of_mem _ hm)
        · exact List.forall_mem_cons.2 ⟨Operator.ne_negate_of_ofEntry ho, hf.ne_negate⟩
        · exact List.forall_mem_cons.2 ⟨Operator.eq_between_of_ofEntry ho, hf.eq_between⟩
        · rw [ha]
          simp [hn, or_assoc, or_left_comm]

theorem fresh_of_readTiers {seen : List String} {configured : List Tier}
    {tiers : List (List Operator)} (h : readTiers seen configured = .ok tiers) :
    Fresh seen tiers.flatten := by
  induction configured generalizing seen tiers with
  | nil =>
    cases h
    exact ⟨by simp, by simp, by simp, by simp⟩
  | cons tier rest ih =>
    rw [readTiers] at h
    obtain ⟨⟨ops, after⟩, ho, h⟩ := bind_eq_ok_iff.1 h
    obtain ⟨tiers', ht, h⟩ := bind_eq_ok_iff.1 h
    cases h
    obtain ⟨hf, ha⟩ := fresh_of_readTier ho
    have hr := ih ht
    refine ⟨?_, ?_, ?_, ?_⟩
    · rw [List.flatten_cons, List.map_append, List.nodup_append]
      refine ⟨hf.nodup, hr.nodup, fun s hs u hu he => ?_⟩
      obtain ⟨p, hp, rfl⟩ := List.mem_map.1 hu
      exact hr.unseen p hp ((ha _).2 (.inr (he ▸ hs)))
    · intro p hp
      rcases List.mem_append.1 hp with hp | hp
      · exact hf.unseen p hp
      · exact fun hm => hr.unseen p hp ((ha _).2 (.inl hm))
    · exact List.forall_mem_append.2 ⟨hf.ne_negate, hr.ne_negate⟩
    · exact List.forall_mem_append.2 ⟨hf.eq_between, hr.eq_between⟩

/-- The table of a reading. -/
def ofFresh (tiers : List (List Operator)) (h : Fresh [] tiers.flatten) : OperatorTable where
  configured := tiers
  nodup := (List.pairwise_map.1 h.nodup).imp fun hne he => hne (congrArg _ he)
  negate_not_mem := fun hm => h.ne_negate _ hm rfl
  eq_between := h.eq_between

/-- The table of configured tiers. Names are taken in upper case. An empty name, a name that
occurred before and a number of operands that the operator cannot have are refused, whichever is
first. -/
def ofTiers (configured : List Tier) : Except ConfigError OperatorTable :=
  match h : readTiers [] configured with
  | .ok tiers => .ok (ofFresh tiers (fresh_of_readTiers h))
  | .error e => .error e

end OperatorTable

end WhereClause
