import WhereClause.Json.Document
import WhereClause.Text.Join

/-!
# Writing JSON

Documents are written without blanks. In strings, quotes, backslashes and control characters are
escaped, and all other characters stand for themselves.
-/

namespace WhereClause.Json

open Text (joinWith)

/-- The hexadecimal digit of a number below 16. -/
def hexDigit (n : Nat) : Char :=
  if n < 10 then Char.ofNat ('0'.toNat + n) else Char.ofNat ('a'.toNat + (n - 10))

/-- A character inside of a string. -/
def escape (c : Char) : List Char :=
  if c = '"' then ['\\', '"']
  else if c = '\\' then ['\\', '\\']
  else if c = '\x08' then ['\\', 'b']
  else if c = '\x0c' then ['\\', 'f']
  else if c = '\n' then ['\\', 'n']
  else if c = '\r' then ['\\', 'r']
  else if c = '\t' then ['\\', 't']
  else if c.toNat < 32 then
    ['\\', 'u', '0', '0', hexDigit (c.toNat / 16), hexDigit (c.toNat % 16)]
  else [c]

/-- A string; one without a text is written as half of a surrogate pair. -/
def writeString : Option String → List Char
  | some text => '"' :: text.toList.flatMap escape ++ ['"']
  | none => "\"\\ud800\"".toList

mutual

/-- The characters of a document. -/
def Document.write : Document → List Char
  | .null => "null".toList
  | .bool value => if value then "true".toList else "false".toList
  | .number value => value.chars
  | .string text => writeString text
  | .array items => '[' :: joinWith [','] (writeItems items) ++ [']']
  | .object members => '{' :: joinWith [','] (writeMembers members) ++ ['}']

/-- The characters of each item. -/
def writeItems : List Document → List (List Char)
  | [] => []
  | item :: rest => item.write :: writeItems rest

/-- The characters of each member. -/
def writeMembers : List (Option String × Document) → List (List Char)
  | [] => []
  | (name, value) :: rest => (writeString name ++ ':' :: value.write) :: writeMembers rest

end

/-- The text of a document. -/
def Document.render (document : Document) : String :=
  String.ofList document.write

end WhereClause.Json
