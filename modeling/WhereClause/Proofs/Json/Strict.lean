import Mathlib.Data.List.Nodup
import WhereClause.Json.Strict
import WhereClause.Proofs.Json.Laws
import WhereClause.Proofs.Json.RoundTrip

/-!
# The strict library keeps its promises

All documents are parsed back from their text, however deeply they are nested.
-/

namespace WhereClause.Json

theorem Number.toByte?_ofByte (b : UInt8) : (ofByte b).toByte? = some b := by
  have hdigits : (ofByte b).chars.all Char.isDigit = true :=
    List.all_eq_true.2 fun c hc => Nat.isDigit_of_mem_toDigits (by decide) (by decide) hc
  have hvalue : Nat.ofDigitChars 10 (ofByte b).chars 0 = b.toNat :=
    Nat.ofDigitChars_toDigits (by decide) (by decide)
  simp only [toByte?, hvalue]
  rw [if_pos ⟨hdigits, b.toNat_lt⟩, UInt8.ofNat_toNat]

theorem Document.members?_ofMembers (members : List (String × Document)) :
    (ofMembers members).members? = some members := by
  rw [ofMembers, members?]
  refine mapM_map_of_forall (fun m => ?_) members
  rfl

namespace Codec

theorem read?_tier (arity : Codec Document Arity) (members : List (String × Document)) :
    (tier arity).read? (.ofMembers members) =
      (members.mapM fun m => (arity.read? m.2).map (m.1, ·)).map Tier.ofList := by
  simp only [tier, Document.members?_ofMembers, Option.bind_eq_bind, Option.bind_some]

/-- Members of different names are read into the fields of their names. -/
theorem read?_record {ρ : Type} (standard : ρ) (fields : List (Field Document ρ))
    {members : List (String × Document)} (h : (members.map (·.1)).Nodup) :
    (record standard fields).read? (.ofMembers members) =
      members.foldlM (Field.readMember? fields) standard := by
  have honce : (fields.all fun field => (members.map (·.1)).count field.name ≤ 1) = true :=
    List.all_eq_true.2 fun field _ =>
      decide_eq_true (List.nodup_iff_count_le_one.1 h field.name)
  have hmembers : (Document.ofMembers members).members? = some members :=
    Document.members?_ofMembers members
  rw [Document.ofMembers] at hmembers ⊢
  simp only [record, hmembers, Option.bind_eq_bind, Option.bind_some, honce, if_true]

end Codec

theorem Library.strict_lawful : Library.strict.Lawful where
  parse?_print document _ := Document.read?_render document
  read?_text _ := rfl
  read?_char c := by simp [strict, Codec.char, Codec.text]
  read?_byte := Number.toByte?_ofByte
  write_list _ _ := rfl
  read?_list _ _ := rfl
  write_tier _ _ := rfl
  read?_tier arity members _ := Codec.read?_tier arity members
  write_record _ _ _ := rfl
  read?_record standard fields _ _ h := Codec.read?_record standard fields h
  write_conversion _ _ _ _ := rfl
  read?_conversion _ _ _ _ := rfl

end WhereClause.Json
