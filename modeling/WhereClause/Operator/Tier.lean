import WhereClause.Operator.Basic

/-!
# Tiers

A tier gives each of some operators, named by their text, a number of operands. The entries are kept
in the order of the names, so a tier is a finite map and two tiers with the same entries are equal.
-/

namespace WhereClause

/-- Entries `(name, arity)` with increasing names. -/
structure Tier where
  /-- The entries. -/
  entries : List (String × Arity)
  /-- The names increase. -/
  sorted : entries.Pairwise fun a b => a.1 < b.1

instance : DecidableEq Tier := fun s t =>
  decidable_of_iff (s.entries = t.entries) (by cases s; cases t; simp)

namespace Tier

/-- The tier without entries. -/
def empty : Tier := ⟨[], .nil⟩

instance : Inhabited Tier := ⟨empty⟩

/-- Puts an entry into its place, instead of one with the same name. -/
def insertEntry (name : String) (arity : Arity) : List (String × Arity) → List (String × Arity)
  | [] => [(name, arity)]
  | e :: rest =>
    if name < e.1 then
      (name, arity) :: e :: rest
    else if e.1 < name then
      e :: insertEntry name arity rest
    else
      (name, arity) :: rest

theorem name_of_mem_insertEntry {name : String} {arity : Arity} {entries : List (String × Arity)}
    {e : String × Arity} (h : e ∈ insertEntry name arity entries) : e.1 = name ∨ e ∈ entries := by
  induction entries with
  | nil => simp_all [insertEntry]
  | cons d rest ih =>
    rw [insertEntry] at h
    split at h
    · rcases List.mem_cons.1 h with rfl | h
      · exact .inl rfl
      · exact .inr h
    · split at h
      · rcases List.mem_cons.1 h with rfl | h
        · exact .inr (by simp)
        · exact (ih h).imp id (List.mem_cons_of_mem _)
      · rcases List.mem_cons.1 h with rfl | h
        · exact .inl rfl
        · exact .inr (List.mem_cons_of_mem _ h)

theorem sorted_insertEntry (name : String) (arity : Arity) {entries : List (String × Arity)}
    (h : entries.Pairwise fun a b => a.1 < b.1) :
    (insertEntry name arity entries).Pairwise fun a b => a.1 < b.1 := by
  induction entries with
  | nil => simp [insertEntry]
  | cons d rest ih =>
    obtain ⟨hd, hr⟩ := List.pairwise_cons.1 h
    rw [insertEntry]
    split
    · rename_i hlt
      refine List.pairwise_cons.2 ⟨fun e he => ?_, h⟩
      rcases List.mem_cons.1 he with rfl | he
      · exact hlt
      · exact String.lt_trans hlt (hd e he)
    · rename_i hge
      split
      · rename_i hgt
        refine List.pairwise_cons.2 ⟨fun e he => ?_, ih hr⟩
        rcases name_of_mem_insertEntry he with he | he
        · exact he ▸ hgt
        · exact hd e he
      · rename_i hle
        have heq : name = d.1 := String.le_antisymm (String.not_lt.1 hle) (String.not_lt.1 hge)
        exact List.pairwise_cons.2 ⟨fun e he => heq ▸ hd e he, hr⟩

/-- The tier with one more entry; an entry of the same name is replaced. -/
def insert (tier : Tier) (name : String) (arity : Arity) : Tier :=
  ⟨insertEntry name arity tier.entries, sorted_insertEntry name arity tier.sorted⟩

/-- The tier of a list of entries, of which the last of a name counts. -/
def ofList (entries : List (String × Arity)) : Tier :=
  entries.foldl (fun tier e => tier.insert e.1 e.2) empty

/-- An entry after all others goes to the end. -/
theorem insertEntry_of_forall_lt {name : String} (arity : Arity) {entries : List (String × Arity)}
    (h : ∀ e ∈ entries, e.1 < name) :
    insertEntry name arity entries = entries ++ [(name, arity)] := by
  induction entries with
  | nil => rfl
  | cons e rest ih =>
    have he := h e List.mem_cons_self
    have hge : ¬ name < e.1 := fun hlt => String.lt_irrefl name (String.lt_trans hlt he)
    rw [insertEntry, if_neg hge, if_pos he,
      ih fun d hd => h d (List.mem_cons_of_mem e hd), List.cons_append]

theorem entries_foldl_insert (tier : Tier) {entries : List (String × Arity)}
    (h : (tier.entries ++ entries).Pairwise fun a b => a.1 < b.1) :
    (entries.foldl (fun tier e => tier.insert e.1 e.2) tier).entries = tier.entries ++ entries := by
  induction entries generalizing tier with
  | nil => simp
  | cons e rest ih =>
    have hlast : (tier.insert e.1 e.2).entries = tier.entries ++ [e] :=
      insertEntry_of_forall_lt e.2 fun d hd =>
        (List.pairwise_append.1 h).2.2 d hd e List.mem_cons_self
    have happend : (tier.insert e.1 e.2).entries ++ rest = tier.entries ++ e :: rest := by
      rw [hlast, List.append_assoc, List.singleton_append]
    rw [List.foldl_cons, ih _ (happend ▸ h), happend]

/-- A tier is the tier of its entries. -/
theorem ofList_entries (tier : Tier) : ofList tier.entries = tier := by
  have h : (ofList tier.entries).entries = tier.entries :=
    entries_foldl_insert empty tier.sorted
  generalize ofList tier.entries = other at h
  cases other
  cases tier
  cases h
  rfl

theorem nodup_names (tier : Tier) : (tier.entries.map (·.1)).Nodup :=
  List.pairwise_map.2 (tier.sorted.imp fun h => String.ne_of_lt h)

end Tier

end WhereClause
