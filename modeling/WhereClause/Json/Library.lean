import WhereClause.Operator.Tier

/-!
# Libraries for JSON

Configurations are written and read by means of a library, which is a parameter here. `Library` is
what it offers: a printer and a parser, codecs for values of the basic types, and ways to make the
codec of a type from those of its parts. `Library.Lawful` is what it promises.

A record is written as an object of its fields. It is read from a standard record, in which each
member of the object replaces the field of its name; members of other names are passed over, and
fields without a member keep their standard value.
-/

namespace WhereClause.Json

variable {δ ρ α : Type}

/-- How values are written as documents and read back. -/
structure Codec (δ α : Type) where
  /-- The document of a value. -/
  write : α → δ
  /-- The value that a document stands for. -/
  read? : δ → Option α

/-! ## Records -/

/-- A field of records. -/
structure Field (δ ρ : Type) where
  /-- The name. -/
  name : String
  /-- The document of the field's value in a record. -/
  write : ρ → δ
  /-- The record in which the field has the value that a document stands for. -/
  read? : ρ → δ → Option ρ

namespace Field

/-- The field of a name, whose value has a codec and which `get` and `set` give access to. -/
def of (name : String) (codec : Codec δ α) (get : ρ → α) (set : ρ → α → ρ) : Field δ ρ where
  name := name
  write record := codec.write (get record)
  read? record document := (codec.read? document).map (set record)

/-- Reads a member of an object into the field of its name, if there is one. -/
def readMember? (fields : List (Field δ ρ)) (record : ρ) (member : String × δ) : Option ρ :=
  match fields.find? (·.name == member.1) with
  | some field => field.read? record member.2
  | none => some record

end Field

/-! ## Libraries -/

/-- What a library for JSON offers. -/
structure Library where
  /-- Documents. -/
  Document : Type
  /-- The array of its items. -/
  array : List Document → Document
  /-- The object of its members. -/
  object : List (String × Document) → Document
  /-- The text of a document. -/
  print : Document → String
  /-- The document of a text. -/
  parse? : String → Option Document
  /-- Texts. -/
  text : Codec Document String
  /-- Characters. -/
  char : Codec Document Char
  /-- Bytes. -/
  byte : Codec Document UInt8
  /-- Lists. -/
  list {α : Type} (item : Codec Document α) : Codec Document (List α)
  /-- Finite maps from names to numbers of operands. -/
  tier (arity : Codec Document Arity) : Codec Document Tier
  /-- Records with standard values. -/
  record {ρ : Type} (standard : ρ) (fields : List (Field Document ρ)) : Codec Document ρ
  /-- Values that are written as those of another type, not all of which stand for one. -/
  conversion {α β ε : Type} (ofOther : β → Except ε α) (toOther : α → β)
    (other : Codec Document β) : Codec Document α

namespace Library

variable (library : Library)

/-- The document holds texts, characters and bytes, in at most `n` layers of arrays and objects. -/
inductive Within : Nat → library.Document → Prop
  /-- A text. -/
  | text (n : Nat) (text : String) : Within n (library.text.write text)
  /-- A character. -/
  | char (n : Nat) (c : Char) : Within n (library.char.write c)
  /-- A byte. -/
  | byte (n : Nat) (b : UInt8) : Within n (library.byte.write b)
  /-- An array. -/
  | array (n : Nat) (items : List library.Document) (h : ∀ item ∈ items, Within n item) :
    Within (n + 1) (library.array items)
  /-- An object. -/
  | object (n : Nat) (members : List (String × library.Document))
    (h : ∀ member ∈ members, Within n member.2) : Within (n + 1) (library.object members)

/-- What a library for JSON promises. -/
structure Lawful : Prop where
  /-- A document is parsed back from its text, unless it is nested too deeply. -/
  parse?_print : ∀ document, library.Within 127 document →
    library.parse? (library.print document) = some document
  /-- Texts are read back, whatever their characters. -/
  read?_text : ∀ text, library.text.read? (library.text.write text) = some text
  /-- Characters are read back. -/
  read?_char : ∀ c, library.char.read? (library.char.write c) = some c
  /-- Bytes are read back. -/
  read?_byte : ∀ b, library.byte.read? (library.byte.write b) = some b
  /-- A list is written as the array of its items. -/
  write_list : ∀ {α : Type} (item : Codec library.Document α) (xs : List α),
    (library.list item).write xs = library.array (xs.map item.write)
  /-- The items of an array are read in order. -/
  read?_list : ∀ {α : Type} (item : Codec library.Document α) (items : List library.Document),
    (library.list item).read? (library.array items) = items.mapM item.read?
  /-- A map is written as the object of its entries. -/
  write_tier : ∀ (arity : Codec library.Document Arity) (tier : Tier),
    (library.tier arity).write tier =
      library.object (tier.entries.map fun e => (e.1, arity.write e.2))
  /-- The members of an object are the entries of a map. -/
  read?_tier : ∀ (arity : Codec library.Document Arity)
    (members : List (String × library.Document)), (members.map (·.1)).Nodup →
    (library.tier arity).read? (library.object members) =
      (members.mapM fun m => (arity.read? m.2).map (m.1, ·)).map Tier.ofList
  /-- A record is written as the object of its fields. -/
  write_record : ∀ {ρ : Type} (standard : ρ) (fields : List (Field library.Document ρ))
    (record : ρ), (library.record standard fields).write record =
      library.object (fields.map fun field => (field.name, field.write record))
  /-- The members of an object are read into the fields of their names. -/
  read?_record : ∀ {ρ : Type} (standard : ρ) (fields : List (Field library.Document ρ))
    (members : List (String × library.Document)), (fields.map (·.name)).Nodup →
    (members.map (·.1)).Nodup → (library.record standard fields).read? (library.object members) =
      members.foldlM (Field.readMember? fields) standard
  /-- What is converted is written as the value it is converted to. -/
  write_conversion : ∀ {α β ε : Type} (ofOther : β → Except ε α) (toOther : α → β)
    (other : Codec library.Document β) (x : α),
    (library.conversion ofOther toOther other).write x = other.write (toOther x)
  /-- What is converted is read as a value of the other type first. -/
  read?_conversion : ∀ {α β ε : Type} (ofOther : β → Except ε α) (toOther : α → β)
    (other : Codec library.Document β) (document : library.Document),
    (library.conversion ofOther toOther other).read? document =
      (other.read? document).bind fun y => (ofOther y).toOption

end Library

end WhereClause.Json
