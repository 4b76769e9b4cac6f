import Mathlib.Data.List.Induction
import WhereClause.Proofs.Operator.Precedence
import WhereClause.Proofs.Text.Capital

/-!
# Tables of configured tiers

Which lists of tiers make a table, what is reported for the others, and what the table of a list of
tiers looks like. The reader of tiers stops at the first entry that is at fault, so it agrees with a
search for this entry; and as upper-case forms do not change any more, looking a word up in the
table is looking it up among the configured names.
-/

namespace WhereClause

/-! ## Entries -/

/-- The operator of an entry: the built-in one of its name, or else one of its own. -/
def Operator.named (entry : String × Arity) : Operator :=
  (builtin? (Text.upper entry.1)).getD (.custom (Text.upper entry.1) entry.2)

/-- A built-in operator keeps its number of operands, and any other has one or two. -/
def Operator.Suits (entry : String × Arity) : Prop :=
  (∀ op, builtin? (Text.upper entry.1) = some op → entry.2 = op.arity) ∧
    (builtin? (Text.upper entry.1) = none → entry.2 = .unary ∨ entry.2 = .binary)

namespace OperatorTable

/-- The names of entries in upper case. -/
def keys (entries : List (String × Arity)) : List String :=
  entries.map fun e => Text.upper e.1

/-- Entries that make a table. -/
structure Consistent (entries : List (String × Arity)) : Prop where
  /-- No name is empty. -/
  ne_empty : ∀ e ∈ entries, e.1 ≠ ""
  /-- The names are distinct in upper case. -/
  nodup : (keys entries).Nodup
  /-- Each operator can have its number of operands. -/
  suits : ∀ e ∈ entries, Operator.Suits e

/-- What is wrong with an entry after others: its name is empty, or it has occurred, or the operator
cannot have that number of operands. -/
def fault? (earlier : List (String × Arity)) (e : String × Arity) : Option ConfigError :=
  if e.1 = "" then
    some .emptySymbol
  else if Text.upper e.1 ∈ keys earlier then
    some (.duplicateOperator e.1)
  else
    match Operator.builtin? (Text.upper e.1) with
    | some op =>
      if e.2 = op.arity then
        none
      else
        some (.arityMismatch (Text.upper e.1) op.arity.count e.2.count)
    | none =>
      if e.2 = .ternary then some (.unsupportedArity (Text.upper e.1) e.2.count) else none

/-- The first fault among entries that stand after others. -/
def firstFault? (earlier : List (String × Arity)) : List (String × Arity) → Option ConfigError
  | [] => none
  | e :: rest => (fault? earlier e).or (firstFault? (earlier ++ [e]) rest)

variable {earlier entries : List (String × Arity)} {e : String × Arity}

@[simp]
theorem keys_append (xs ys : List (String × Arity)) : keys (xs ++ ys) = keys xs ++ keys ys :=
  List.map_append

theorem symbol_named (e : String × Arity) : (Operator.named e).symbol = Text.upper e.1 := by
  unfold Operator.named
  cases h : Operator.builtin? (Text.upper e.1) with
  | none => rfl
  | some op =>
    rw [Option.getD_some, Operator.symbol_of_builtin? h, Text.asciiUpper_upper]

theorem named_eq_subtract_iff : Operator.named e = .subtract ↔ e.1 = "-" := by
  constructor
  · intro h
    rw [← Text.upper_eq_minus_iff, ← symbol_named, h]
    rfl
  · intro h
    have hb : Operator.builtin? (Text.upper "-") = some .subtract := by decide
    rw [Operator.named, h, hb]
    rfl

/-! ## The first fault -/

theorem fault?_eq_none_iff :
    fault? earlier e = none ↔
      e.1 ≠ "" ∧ Text.upper e.1 ∉ keys earlier ∧ Operator.Suits e := by
  unfold fault? Operator.Suits
  by_cases hempty : e.1 = ""
  · simp [hempty]
  · by_cases hseen : Text.upper e.1 ∈ keys earlier
    · simp [hempty, hseen]
    · cases hb : Operator.builtin? (Text.upper e.1) with
      | none => cases ha : e.2 <;> simp [hempty, hseen]
      | some op => simp [hempty, hseen]

theorem consistent_concat_iff :
    Consistent (entries ++ [e]) ↔ Consistent entries ∧ fault? entries e = none := by
  rw [fault?_eq_none_iff]
  constructor
  · rintro ⟨hempty, hnodup, hsuits⟩
    rw [keys_append, List.nodup_append] at hnodup
    obtain ⟨hnodup, -, hdistinct⟩ := hnodup
    rw [List.forall_mem_append] at hempty hsuits
    refine ⟨⟨hempty.1, hnodup, hsuits.1⟩, hempty.2 e (by simp), fun hm => ?_, hsuits.2 e (by simp)⟩
    exact hdistinct _ hm _ (by simp [keys]) rfl
  · rintro ⟨⟨hempty, hnodup, hsuits⟩, hempty', hseen, hsuits'⟩
    refine ⟨?_, ?_, ?_⟩
    · exact List.forall_mem_append.2 ⟨hempty, by simpa using hempty'⟩
    · rw [keys_append, List.nodup_append]
      refine ⟨hnodup, by simp [keys], fun key hk last hl he => hseen ?_⟩
      have hlast : last = Text.upper e.1 := by simpa [keys] using hl
      rwa [← hlast, ← he]
    · exact List.forall_mem_append.2 ⟨hsuits, by simpa using hsuits'⟩

theorem firstFault?_append (earlier xs ys : List (String × Arity)) :
    firstFault? earlier (xs ++ ys) =
      (firstFault? earlier xs).or (firstFault? (earlier ++ xs) ys) := by
  induction xs generalizing earlier with
  | nil => simp [firstFault?]
  | cons e rest ih =>
    rw [List.cons_append, firstFault?, firstFault?, ih, Option.or_assoc, List.append_assoc,
      List.singleton_append]

theorem firstFault?_concat :
    firstFault? [] (entries ++ [e]) = (firstFault? [] entries).or (fault? entries e) := by
  simp [firstFault?_append, firstFault?]

/-- No entry is at fault exactly if the entries make a table. -/
theorem firstFault?_eq_none_iff : firstFault? [] entries = none ↔ Consistent entries := by
  induction entries using List.reverseRecOn with
  | nil => exact iff_of_true rfl ⟨by simp, by simp [keys], by simp⟩
  | append_singleton entries e ih =>
    rw [firstFault?_concat, Option.or_eq_none_iff, ih, consistent_concat_iff]

/-- The first fault is that of an entry after others that make a table. -/
theorem firstFault?_eq_some_iff {error : ConfigError} :
    firstFault? [] entries = some error ↔
      ∃ before e after, entries = before ++ e :: after ∧ Consistent before ∧
        fault? before e = some error := by
  constructor
  · intro h
    induction entries using List.reverseRecOn with
    | nil => cases h
    | append_singleton entries e ih =>
      rw [firstFault?_concat, Option.or_eq_some_iff] at h
      rcases h with h | ⟨hnone, h⟩
      · obtain ⟨before, d, after, rfl, hb, hd⟩ := ih h
        exact ⟨before, d, after ++ [e], by simp, hb, hd⟩
      · exact ⟨entries, e, [], rfl, firstFault?_eq_none_iff.1 hnone, h⟩
  · rintro ⟨before, e, after, rfl, hb, he⟩
    rw [firstFault?_append, firstFault?_eq_none_iff.2 hb, List.nil_append, firstFault?, he]
    rfl

/-! ## Reading tiers -/

/-- The reader of an entry that is not empty and new looks only at its number of operands. -/
theorem ofEntry_upper_eq (hempty : e.1 ≠ "") (hseen : Text.upper e.1 ∉ keys earlier) :
    Operator.ofEntry (Text.upper e.1) e.2 =
      (fault? earlier e).elim (.ok (Operator.named e)) .error := by
  unfold Operator.ofEntry fault? Operator.named
  rw [if_neg hempty, if_neg hseen]
  cases hb : Operator.builtin? (Text.upper e.1) with
  | none => by_cases ha : e.2 = .ternary <;> simp [ha]
  | some op => by_cases ha : e.2 = op.arity <;> simp [ha, Ne.symm]

theorem readTier_eq (earlier entries : List (String × Arity)) :
    readTier (keys earlier).reverse entries =
      (firstFault? earlier entries).elim
        (.ok (entries.map Operator.named, (keys (earlier ++ entries)).reverse)) .error := by
  induction entries generalizing earlier with
  | nil => simp [readTier, firstFault?]
  | cons e rest ih =>
    rw [readTier, firstFault?, List.contains_reverse]
    by_cases hempty : e.1 = ""
    · simp [fault?, hempty]
    · by_cases hseen : Text.upper e.1 ∈ keys earlier
      · simp [fault?, hempty, hseen]
      · have hkeys :
            Text.upper e.1 :: (keys earlier).reverse = (keys (earlier ++ [e])).reverse := by
          simp [keys]
        rw [if_neg (by simpa using hempty), if_neg (by simpa using hseen),
          ofEntry_upper_eq hempty hseen, hkeys, ih]
        cases fault? earlier e with
        | some error => rfl
        | none =>
          rw [Option.elim_none, ok_bind, Option.none_or, List.append_assoc, List.singleton_append]
          cases firstFault? (earlier ++ [e]) rest <;> rfl

theorem readTiers_eq (earlier : List (String × Arity)) (configured : List Tier) :
    readTiers (keys earlier).reverse configured =
      (firstFault? earlier (configured.flatMap Tier.entries)).elim
        (.ok (configured.map fun tier => tier.entries.map Operator.named)) .error := by
  induction configured generalizing earlier with
  | nil => rfl
  | cons tier rest ih =>
    rw [readTiers, readTier_eq, List.flatMap_cons, firstFault?_append]
    cases firstFault? earlier tier.entries with
    | some error => rfl
    | none =>
      simp only [Option.elim_none, ok_bind, Option.none_or, ih, List.map_cons]
      cases firstFault? (earlier ++ tier.entries) (rest.flatMap Tier.entries) <;> rfl

/-- The table of tiers without a fault holds the operators of the entries, in order. -/
theorem map_configured_ofTiers (configured : List Tier) :
    (ofTiers configured).map OperatorTable.configured =
      (firstFault? [] (configured.flatMap Tier.entries)).elim
        (.ok (configured.map fun tier => tier.entries.map Operator.named)) .error := by
  have hread : readTiers [] configured = _ := readTiers_eq [] configured
  rw [← hread]
  unfold ofTiers
  split
  · rename_i tiers h
    exact h.symm
  · rename_i error h
    exact h.symm

theorem ofTiers_eq_error_iff {configured : List Tier} {error : ConfigError} :
    ofTiers configured = .error error ↔
      firstFault? [] (configured.flatMap Tier.entries) = some error := by
  have h := map_configured_ofTiers configured
  cases hf : firstFault? [] (configured.flatMap Tier.entries) <;>
    cases ho : ofTiers configured <;> simp_all [Except.map]

theorem configured_of_ofTiers {configured : List Tier} {t : OperatorTable}
    (ho : ofTiers configured = .ok t) :
    t.configured = configured.map fun tier => tier.entries.map Operator.named := by
  have h := map_configured_ofTiers configured
  cases hf : firstFault? [] (configured.flatMap Tier.entries) <;> simp_all [Except.map]

/-! ## The table -/

/-- The table is that of the configured tiers. -/
structure Represents (configured : List Tier) (t : OperatorTable) : Prop where
  /-- A word names the operator of the entry whose name it is, in any case. -/
  get?_eq_some_iff : ∀ word op, t.get? word = some op ↔
    ∃ (i : Nat) (tier : Tier) (e : String × Arity), configured[i]? = some tier ∧ e ∈ tier.entries ∧
      Text.upper e.1 = Text.upper word ∧ op = Operator.named e
  /-- The operators of a configured tier stand in the tier after it, and only there. -/
  precedence?_eq : ∀ (i : Nat) (tier : Tier) (e : String × Arity),
    configured[i]? = some tier → e ∈ tier.entries →
      t.precedence? (Operator.named e) = some (i + 1) ∧ ∀ k, Operator.named e ∈ t.tier k ↔ k = i + 1
  /-- No word names the prefix minus. -/
  get?_ne_negate : ∀ word, t.get? word ≠ some .negate
  /-- The prefix minus has tier 0 to itself if a minus is configured. -/
  negate : (∃ tier ∈ configured, ∃ e ∈ tier.entries, e.1 = "-") →
    t.precedence? .negate = some 0 ∧ t.tier 0 = [.negate]
  /-- Otherwise tier 0 is empty, and there is no prefix minus. -/
  no_negate : (¬ ∃ tier ∈ configured, ∃ e ∈ tier.entries, e.1 = "-") →
    t.precedence? .negate = none ∧ t.tier 0 = []
  /-- Two operators of the table are compared by their tiers. -/
  bindsTighterOrEqual_iff : ∀ first ∈ t.tiers.flatten, ∀ second ∈ t.tiers.flatten,
    ∃ j k, t.precedence? first = some j ∧ t.precedence? second = some k ∧
      (t.bindsTighterOrEqual first second = true ↔ j ≤ k) ∧
      (t.bindsTighterOrEqual first second = true ↔ ¬ t.bindsTighter second first = true)

section Represents

variable {configured : List Tier} {t : OperatorTable}
  (ht : t.configured = configured.map fun tier => tier.entries.map Operator.named)

include ht

theorem flatten_configured :
    t.configured.flatten = (configured.flatMap Tier.entries).map Operator.named := by
  rw [ht, List.map_flatMap, List.flatMap_def]

/-- As the names are distinct in upper case, a word is looked up among them. -/
theorem get?_eq_some_iff_mem (hn : (keys (configured.flatMap Tier.entries)).Nodup) {word : String}
    {op : Operator} :
    t.get? word = some op ↔
      ∃ e ∈ configured.flatMap Tier.entries, Text.upper e.1 = Text.upper word ∧
        op = Operator.named e := by
  have hsymbol : ∀ e, Text.upper (Operator.named e).symbol = Text.upper e.1 := by
    intro e
    rw [symbol_named, Text.upper_upper]
  rw [get?, flatten_configured ht]
  constructor
  · intro h
    obtain ⟨e, he, rfl⟩ := List.mem_map.1 (List.mem_of_find?_eq_some h)
    have hu := List.find?_some h
    rw [beq_iff_eq, hsymbol] at hu
    exact ⟨e, he, hu, rfl⟩
  · rintro ⟨e, he, hu, hop⟩
    rw [hop]
    cases h : ((configured.flatMap Tier.entries).map Operator.named).find?
        fun op => Text.upper op.symbol == Text.upper word with
    | none =>
      have := List.find?_eq_none.1 h _ (List.mem_map_of_mem he)
      rw [beq_iff_eq, hsymbol] at this
      exact absurd hu this
    | some op =>
      obtain ⟨d, hd, rfl⟩ := List.mem_map.1 (List.mem_of_find?_eq_some h)
      have hu' := List.find?_some h
      rw [beq_iff_eq, hsymbol] at hu'
      rw [List.inj_on_of_nodup_map hn hd he (hu'.trans hu.symm)]

theorem named_mem_tier {i : Nat} {tier : Tier} {e : String × Arity}
    (hi : configured[i]? = some tier) (he : e ∈ tier.entries) :
    Operator.named e ∈ t.tier (i + 1) := by
  have hget : t.tiers[i + 1]? = some (tier.entries.map Operator.named) := by
    rw [tiers, List.getElem?_cons_succ, ht, List.getElem?_map, hi]
    rfl
  rw [OperatorTable.tier, List.getD_eq_getElem?_getD, hget]
  exact List.mem_map_of_mem he

theorem negation?_eq_some_iff_minus :
    t.negation? = some .negate ↔ ∃ tier ∈ configured, ∃ e ∈ tier.entries, e.1 = "-" := by
  have hmem : t.configured.flatten.contains .subtract = true ↔
      ∃ tier ∈ configured, ∃ e ∈ tier.entries, e.1 = "-" := by
    rw [List.contains_iff_mem, flatten_configured ht, List.mem_map]
    simp only [named_eq_subtract_iff, List.mem_flatMap]
    exact ⟨fun ⟨e, ⟨tier, hm, he⟩, h⟩ => ⟨tier, hm, e, he, h⟩,
      fun ⟨tier, hm, e, he, h⟩ => ⟨e, ⟨tier, hm, he⟩, h⟩⟩
  rw [← hmem, negation?]
  split <;> simp_all

theorem represents (hn : (keys (configured.flatMap Tier.entries)).Nodup) :
    Represents configured t where
  get?_eq_some_iff word op := by
    rw [get?_eq_some_iff_mem ht hn]
    constructor
    · rintro ⟨e, he, hu, hop⟩
      obtain ⟨tier, hm, he⟩ := List.mem_flatMap.1 he
      obtain ⟨i, hi⟩ := List.mem_iff_getElem?.1 hm
      exact ⟨i, tier, e, hi, he, hu, hop⟩
    · rintro ⟨i, tier, e, hi, he, hu, hop⟩
      exact ⟨e, List.mem_flatMap.2 ⟨tier, List.mem_of_getElem? hi, he⟩, hu, hop⟩
  precedence?_eq i tier e hi he := by
    have hm := named_mem_tier ht hi he
    exact ⟨precedence?_eq_some_iff.2 hm,
      fun k => ⟨fun hk => tier_unique hk hm, fun hk => hk ▸ hm⟩⟩
  get?_ne_negate word h := t.negate_not_mem (List.mem_of_find?_eq_some h)
  negate hminus := by
    have htier : t.tier 0 = [.negate] := by
      simp [OperatorTable.tier, tiers, (negation?_eq_some_iff_minus ht).2 hminus]
    exact ⟨precedence?_eq_some_iff.2 (by simp [htier]), htier⟩
  no_negate hminus := by
    have hnone : t.negation? = none := by
      cases h : t.negation? with
      | none => rfl
      | some op =>
        obtain rfl := eq_negate_of_negation? h
        exact absurd ((negation?_eq_some_iff_minus ht).1 h) hminus
    refine ⟨?_, by simp [OperatorTable.tier, tiers, hnone]⟩
    rw [Option.eq_none_iff_forall_ne_some]
    intro k hk
    have hm := mem_tiers_iff_exists_tier.2 ⟨k, precedence?_eq_some_iff.1 hk⟩
    rcases mem_tiers_flatten_iff.1 hm with hm | hm
    · simp [hnone] at hm
    · exact t.negate_not_mem hm
  bindsTighterOrEqual_iff first hfirst second hsecond := by
    obtain ⟨j, hj⟩ := mem_tiers_iff_exists_tier.1 hfirst
    obtain ⟨k, hk⟩ := mem_tiers_iff_exists_tier.1 hsecond
    refine ⟨j, k, precedence?_eq_some_iff.2 hj, precedence?_eq_some_iff.2 hk,
      OperatorTable.bindsTighterOrEqual_iff hj hk, ?_⟩
    rw [OperatorTable.bindsTighterOrEqual_iff hj hk, bindsTighter_iff hk hj, Nat.not_lt]

end Represents

/-- Tiers make a table exactly if no name is empty, the names are distinct in upper case and each
operator can have its number of operands. Otherwise the error is that of the first entry that breaks
this, and what is wrong with it is looked for in that order. -/
theorem ofTiers_iff_consistent (configured : List Tier) :
    ((∃ t, ofTiers configured = .ok t) ↔ Consistent (configured.flatMap Tier.entries)) ∧
    (∀ error, ofTiers configured = .error error ↔
      ∃ before e after, configured.flatMap Tier.entries = before ++ e :: after ∧
        Consistent before ∧ fault? before e = some error) ∧
    (∀ t, ofTiers configured = .ok t → Represents configured t) := by
  have hok : (∃ t, ofTiers configured = .ok t) ↔ Consistent (configured.flatMap Tier.entries) := by
    rw [← firstFault?_eq_none_iff, Option.eq_none_iff_forall_ne_some]
    simp only [ne_eq, ← ofTiers_eq_error_iff]
    cases ofTiers configured <;> simp
  refine ⟨hok, fun error => ofTiers_eq_error_iff.trans firstFault?_eq_some_iff, fun t h => ?_⟩
  exact represents (configured_of_ofTiers h) (hok.1 ⟨t, h⟩).nodup

/-- A table in which `ß` and `ss` are one name, with a minus and so with a prefix minus. -/
theorem exists_ofTiers_eszett :
    ∃ t, ofTiers [.ofList [("-", .binary), ("ß", .unary)], .ofList [("in", .binary)]] = .ok t ∧
      t.get? "ss" = some (.custom "SS" .unary) ∧ t.precedence? (.custom "SS" .unary) = some 1 ∧
      t.tier 0 = [.negate] := by
  obtain ⟨t, h⟩ := exists_eq_ok (x := ofTiers
    [.ofList [("-", .binary), ("ß", .unary)], .ofList [("in", .binary)]]) (by decide +kernel)
  have hr := (ofTiers_iff_consistent _).2.2 t h
  have hname : Operator.named ("ß", .unary) = .custom "SS" .unary := by decide +kernel
  refine ⟨t, h, ?_, ?_, ?_⟩
  · exact (hr.get?_eq_some_iff _ _).2
      ⟨0, _, ("ß", .unary), rfl, by decide +kernel, by decide +kernel, hname.symm⟩
  · rw [← hname]
    exact (hr.precedence?_eq 0 _ ("ß", .unary) rfl (by decide +kernel)).1
  · exact (hr.negate ⟨_, List.mem_cons_self, ("-", .binary), by decide +kernel, rfl⟩).2

end OperatorTable

end WhereClause
