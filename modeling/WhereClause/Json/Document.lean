/-!
# JSON documents

A JSON document as it is written: members keep their order and may repeat a name, and numbers keep
their digits. A string whose escapes hold half of a surrogate pair alone is well-formed JSON but
stands for no text.
-/

namespace WhereClause.Json

/-! ## Numbers -/

/-- What follows digits, of which there must be at least one. -/
def afterDigits? : List Char → Option (List Char)
  | c :: rest => if c.isDigit then some (rest.dropWhile Char.isDigit) else none
  | [] => none

/-- What follows the digits before the point: a zero, or digits that start with another. -/
def afterWhole? : List Char → Option (List Char)
  | '0' :: rest => some rest
  | cs => afterDigits? cs

/-- What follows an optional fraction. -/
def afterFraction? : List Char → Option (List Char)
  | '.' :: rest => afterDigits? rest
  | cs => some cs

/-- What follows an optional power of ten. -/
def afterPower? : List Char → Option (List Char)
  | c :: rest =>
    if c = 'e' ∨ c = 'E' then
      match rest with
      | '+' :: rest => afterDigits? rest
      | '-' :: rest => afterDigits? rest
      | rest => afterDigits? rest
    else
      some (c :: rest)
  | [] => some []

/-- The characters that numbers are made of. -/
def isNumeral (c : Char) : Bool :=
  c.isDigit || ['-', '+', '.', 'e', 'E'].contains c

/-- Whether the characters are a number: a whole part, a fraction and a power of ten, the latter two
optional, with an optional minus in front. -/
def isNumber (cs : List Char) : Bool :=
  let unsigned := match cs with
    | '-' :: rest => rest
    | cs => cs
  cs.all isNumeral && (afterWhole? unsigned >>= afterFraction? >>= afterPower?) == some []

/-- A number, as it is written. -/
structure Number where
  /-- The characters. -/
  chars : List Char
  /-- They are a number. -/
  valid : isNumber chars = true
deriving DecidableEq, Repr

/-! ## Documents -/

/-- A JSON document. -/
inductive Document
  /-- The constant `null`. -/
  | null
  /-- The constants `true` and `false`. -/
  | bool (value : Bool)
  /-- A number. -/
  | number (value : Number)
  /-- A string, and its text if it has one. -/
  | string (text : Option String)
  /-- An array. -/
  | array (items : List Document)
  /-- An object, with the names of its members. -/
  | object (members : List (Option String × Document))
deriving Repr, Inhabited

end WhereClause.Json
