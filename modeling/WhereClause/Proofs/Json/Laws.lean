import WhereClause.Json.Library

/-!
# Codecs of lawful libraries

A codec is faithful if each value is read back from its document and that document is nested in a
bounded number of layers. The codecs of the basic types of a lawful library are faithful, and so is
what the library makes of faithful codecs: each array or object adds one layer.
-/

namespace WhereClause.Json

variable {library : Library} {α β ε ρ : Type} {n : Nat}

theorem mapM_map_of_forall {read : β → Option α} {write : α → β}
    (h : ∀ x, read (write x) = some x) (xs : List α) : (xs.map write).mapM read = some xs := by
  induction xs with
  | nil => rfl
  | cons x xs ih => rw [List.map_cons, List.mapM_cons, h, ih]; rfl

/-- Each value is read back from its document, which has at most `n` layers. -/
structure Codec.Faithful (n : Nat) (codec : Codec library.Document α) : Prop where
  /-- The value is read back. -/
  read?_write : ∀ x, codec.read? (codec.write x) = some x
  /-- The layers of the document. -/
  within : ∀ x, library.Within n (codec.write x)

/-! ## Fields -/

namespace Field

variable {δ : Type} {fields : List (Field δ ρ)} {field : Field δ ρ}

/-- A field is found by its name. -/
theorem find?_name (h : (fields.map (·.name)).Nodup) (hmem : field ∈ fields) :
    fields.find? (·.name == field.name) = some field := by
  induction fields with
  | nil => cases hmem
  | cons other rest ih =>
    obtain ⟨hother, hrest⟩ := List.nodup_cons.1 h
    rcases List.mem_cons.1 hmem with rfl | hmem
    · exact List.find?_cons_of_pos (by simp)
    · have hne : other.name ≠ field.name := fun heq =>
        hother (List.mem_map.2 ⟨field, hmem, heq.symm⟩)
      rw [List.find?_cons_of_neg (by simpa using hne), ih hrest hmem]

/-- The members that a record is written as are read one after the other, each into the field that
wrote it. -/
theorem foldlM_readMember? (h : (fields.map (·.name)).Nodup) (record standard : ρ) :
    (fields.map fun field => (field.name, field.write record)).foldlM (readMember? fields)
        standard =
      fields.foldlM (fun r field => field.read? r (field.write record)) standard := by
  have hpart (part : List (Field δ ρ)) (hpart : part ⊆ fields) (standard : ρ) :
      (part.map fun field => (field.name, field.write record)).foldlM (readMember? fields)
          standard =
        part.foldlM (fun r field => field.read? r (field.write record)) standard := by
    induction part generalizing standard with
    | nil => rfl
    | cons field part ih =>
      obtain ⟨hmem, hpart⟩ := List.cons_subset.1 hpart
      simp only [List.map_cons, List.foldlM_cons, readMember?, find?_name h hmem, ih hpart]
  exact hpart fields (List.Subset.refl fields) standard

/-- What a field writes of a record is read back into any other record. -/
theorem read?_of {codec : Codec library.Document α} (hcodec : codec.Faithful n) (name : String)
    (get : ρ → α) (set : ρ → α → ρ) (record other : ρ) :
    (of name codec get set).read? other ((of name codec get set).write record) =
      some (set other (get record)) := by
  simp only [of, hcodec.read?_write, Option.map_some]

end Field

/-! ## The codecs of a library -/

namespace Library.Lawful

variable (lawful : library.Lawful)
include lawful

theorem faithful_text (n : Nat) : library.text.Faithful n :=
  ⟨lawful.read?_text, .text n⟩

theorem faithful_char (n : Nat) : library.char.Faithful n :=
  ⟨lawful.read?_char, .char n⟩

theorem faithful_byte (n : Nat) : library.byte.Faithful n :=
  ⟨lawful.read?_byte, .byte n⟩

theorem faithful_list {item : Codec library.Document α} (h : item.Faithful n) :
    (library.list item).Faithful (n + 1) where
  read?_write xs := by
    rw [lawful.write_list, lawful.read?_list, mapM_map_of_forall h.read?_write]
  within xs := by
    rw [lawful.write_list]
    refine .array n _ fun document hmem => ?_
    obtain ⟨x, -, rfl⟩ := List.mem_map.1 hmem
    exact h.within x

theorem faithful_tier {arity : Codec library.Document Arity} (h : arity.Faithful n) :
    (library.tier arity).Faithful (n + 1) where
  read?_write tier := by
    have hentry (e : String × Arity) :
        (arity.read? (arity.write e.2)).map (e.1, ·) = some e := by
      rw [h.read?_write, Option.map_some]
    have hnames : ((tier.entries.map fun e => (e.1, arity.write e.2)).map (·.1)).Nodup := by
      rw [List.map_map]
      exact tier.nodup_names
    rw [lawful.write_tier, lawful.read?_tier _ _ hnames, mapM_map_of_forall hentry,
      Option.map_some, tier.ofList_entries]
  within tier := by
    rw [lawful.write_tier]
    refine .object n _ fun member hmem => ?_
    obtain ⟨e, -, rfl⟩ := List.mem_map.1 hmem
    exact h.within e.2

/-- A record is read back if its fields, read in their order, replace all of the standard record. -/
theorem faithful_record {standard : ρ} {fields : List (Field library.Document ρ)}
    (hnames : (fields.map (·.name)).Nodup)
    (hread : ∀ record, fields.foldlM (fun r field => field.read? r (field.write record)) standard =
      some record)
    (hwithin : ∀ field ∈ fields, ∀ record, library.Within n (field.write record)) :
    (library.record standard fields).Faithful (n + 1) where
  read?_write record := by
    have hmembers :
        ((fields.map fun field => (field.name, field.write record)).map (·.1)).Nodup := by
      rw [List.map_map]
      exact hnames
    rw [lawful.write_record, lawful.read?_record _ _ _ hnames hmembers,
      Field.foldlM_readMember? hnames, hread]
  within record := by
    rw [lawful.write_record]
    refine .object n _ fun member hmem => ?_
    obtain ⟨field, hfield, rfl⟩ := List.mem_map.1 hmem
    exact hwithin field hfield record

theorem faithful_conversion {other : Codec library.Document β} (h : other.Faithful n)
    {ofOther : β → Except ε α} {toOther : α → β} (hback : ∀ x, ofOther (toOther x) = .ok x) :
    (library.conversion ofOther toOther other).Faithful n where
  read?_write x := by
    rw [lawful.write_conversion, lawful.read?_conversion, h.read?_write, Option.bind_some, hback]
    rfl
  within x := by
    rw [lawful.write_conversion]
    exact h.within (toOther x)

end Library.Lawful

end WhereClause.Json
