import WhereClause.Json.Library
import WhereClause.Json.Printer
import WhereClause.Json.Reader

/-!
# A strict library for JSON

The library that programs run with. Beyond what every library promises, an object may not repeat a
field of a record, while of the members of one name in a map the last counts; and a record may also
be written as an array of its fields in order, of which the last ones may be missing. The depth of
nesting needs no limit: a document deeper than its value is refused or passed over.
-/

namespace WhereClause.Json

variable {α β ε ρ : Type}

/-! ## Basic types -/

theorem isNumber_toDigits : ∀ n < 256, isNumber (Nat.toDigits 10 n) = true := by
  decide +kernel

/-- A byte as a number. -/
def Number.ofByte (b : UInt8) : Number :=
  ⟨Nat.toDigits 10 b.toNat, isNumber_toDigits b.toNat b.toNat_lt⟩

/-- The byte of a number without sign, fraction and power of ten. -/
def Number.toByte? (value : Number) : Option UInt8 :=
  let n := Nat.ofDigitChars 10 value.chars 0
  if value.chars.all Char.isDigit ∧ n < 256 then some (.ofNat n) else none

namespace Codec

/-- A text is a string. -/
def text : Codec Document String where
  write text := .string (some text)
  read?
    | .string text => text
    | _ => none

/-- A character is a string of one character. -/
def char : Codec Document Char where
  write c := .string (some c.toString)
  read? document := do
    match (← text.read? document).toList with
    | [c] => some c
    | _ => none

/-- A byte is a number. -/
def byte : Codec Document UInt8 where
  write b := .number (.ofByte b)
  read?
    | .number value => value.toByte?
    | _ => none

end Codec

/-! ## Compound types -/

namespace Document

/-- The object of members whose names are texts. -/
def ofMembers (members : List (String × Document)) : Document :=
  .object (members.map fun m => (some m.1, m.2))

/-- The members of an object, if all of their names are texts. -/
def members? : Document → Option (List (String × Document))
  | .object members => members.mapM fun m => m.1.map (·, m.2)
  | _ => none

end Document

namespace Codec

/-- A list is an array. -/
def list (item : Codec Document α) : Codec Document (List α) where
  write xs := .array (xs.map item.write)
  read?
    | .array items => items.mapM item.read?
    | _ => none

/-- A finite map is an object. -/
def tier (arity : Codec Document Arity) : Codec Document Tier where
  write tier := .ofMembers (tier.entries.map fun e => (e.1, arity.write e.2))
  read? document := do
    let members ← document.members?
    (members.mapM fun m => (arity.read? m.2).map (m.1, ·)).map Tier.ofList

/-- A record is an object, or an array of the first of its fields. -/
def record (standard : ρ) (fields : List (Field Document ρ)) : Codec Document ρ where
  write record := .ofMembers (fields.map fun field => (field.name, field.write record))
  read?
    | .array items =>
      if items.length ≤ fields.length then
        (fields.zip items).foldlM (fun record (field, item) => field.read? record item) standard
      else
        none
    | document => do
      let members ← document.members?
      if fields.all fun field => (members.map (·.1)).count field.name ≤ 1 then
        members.foldlM (Field.readMember? fields) standard
      else
        none

/-- What is converted is written as the value it is converted to. -/
def conversion (ofOther : β → Except ε α) (toOther : α → β) (other : Codec Document β) :
    Codec Document α where
  write x := other.write (toOther x)
  read? document := (other.read? document).bind fun y => (ofOther y).toOption

end Codec

/-- The library of strict JSON. -/
def Library.strict : Library where
  Document := Json.Document
  array := .array
  object := .ofMembers
  print := Json.Document.render
  parse? := Json.Document.read?
  text := Codec.text
  char := Codec.char
  byte := Codec.byte
  list := Codec.list
  tier := Codec.tier
  record := Codec.record
  conversion := Codec.conversion

end WhereClause.Json
