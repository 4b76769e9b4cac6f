import WhereClause.Json.Document

/-!
# Reading JSON

The strict grammar of JSON: no trailing commas, no leading zeros, no raw control characters in
strings, and nothing but blanks around the document. The depth of nesting is not limited.
-/

namespace WhereClause.Json

/-! ## Blanks and numbers -/

/-- The four blanks of JSON. -/
def isBlank (c : Char) : Bool :=
  c == ' ' || c == '\n' || c == '\r' || c == '\t'

/-- The text from its first character on that is no blank. -/
def skipBlanks (cs : List Char) : List Char :=
  cs.dropWhile isBlank

/-- Takes a number off the front, with all characters that numbers are made of. -/
def takeNumber? (cs : List Char) : Option (Number × List Char) :=
  if h : isNumber (cs.takeWhile isNumeral) then
    some (⟨cs.takeWhile isNumeral, h⟩, cs.dropWhile isNumeral)
  else
    none

/-! ## Strings -/

/-- The value of a hexadecimal digit. -/
def hexDigit? (c : Char) : Option Nat :=
  if c.isDigit then
    some (c.toNat - '0'.toNat)
  else if 'a' ≤ c ∧ c ≤ 'f' then
    some (c.toNat - 'a'.toNat + 10)
  else if 'A' ≤ c ∧ c ≤ 'F' then
    some (c.toNat - 'A'.toNat + 10)
  else
    none

/-- The value of four hexadecimal digits. -/
def hexCode? (a b c d : Char) : Option Nat := do
  return (((← hexDigit? a) * 16 + (← hexDigit? b)) * 16 + (← hexDigit? c)) * 16 + (← hexDigit? d)

/-- The character that a backslash and the letter `c` stand for. -/
def shortEscape? (c : Char) : Option Char :=
  [('"', '"'), ('\\', '\\'), ('/', '/'), ('b', '\x08'), ('f', '\x0c'), ('n', '\n'), ('r', '\r'),
    ('t', '\t')].lookup c

/-- Reads the rest of a string, up to its closing quote, into code points and halves of surrogate
pairs. -/
def readUnits? : List Char → Option (List Nat × List Char)
  | [] => none
  | '"' :: rest => some ([], rest)
  | '\\' :: 'u' :: a :: b :: c :: d :: rest => do
    let code ← hexCode? a b c d
    let (units, rest) ← readUnits? rest
    return (code :: units, rest)
  | '\\' :: c :: rest => do
    let c ← shortEscape? c
    let (units, rest) ← readUnits? rest
    return (c.toNat :: units, rest)
  | c :: rest =>
    if c.toNat < 32 then
      none
    else do
      let (units, rest) ← readUnits? rest
      return (c.toNat :: units, rest)

/-- Whether the code is the first half of a surrogate pair. -/
def isHighHalf (code : Nat) : Bool :=
  0xD800 ≤ code && code ≤ 0xDBFF

/-- Whether the code is the second half of a surrogate pair. -/
def isLowHalf (code : Nat) : Bool :=
  0xDC00 ≤ code && code ≤ 0xDFFF

/-- The text of code points, in which halves of surrogate pairs must stand together. -/
def textOfUnits? : List Nat → Option (List Char)
  | [] => some []
  | code :: rest =>
    if isHighHalf code then
      match rest with
      | low :: rest =>
        if isLowHalf low then
          (textOfUnits? rest).map
            (Char.ofNat (0x10000 + (code - 0xD800) * 0x400 + (low - 0xDC00)) :: ·)
        else
          none
      | [] => none
    else if isLowHalf code then
      none
    else
      (textOfUnits? rest).map (Char.ofNat code :: ·)

/-- Reads the rest of a string: its text, if it has one, and what follows it. -/
def readString? (cs : List Char) : Option (Option String × List Char) :=
  (readUnits? cs).map fun (units, rest) => ((textOfUnits? units).map String.ofList, rest)

/-! ## Documents -/

mutual

/-- Reads a document and gives what follows it. -/
def readDocument? : Nat → List Char → Option (Document × List Char)
  | 0, _ => none
  | fuel + 1, cs =>
    match skipBlanks cs with
    | '"' :: rest => (readString? rest).map fun (text, rest) => (.string text, rest)
    | '[' :: rest =>
      match skipBlanks rest with
      | ']' :: rest => some (.array [], rest)
      | rest => (readItems? fuel rest).map fun (items, rest) => (.array items, rest)
    | '{' :: rest =>
      match skipBlanks rest with
      | '}' :: rest => some (.object [], rest)
      | rest => (readMembers? fuel rest).map fun (members, rest) => (.object members, rest)
    | 'n' :: 'u' :: 'l' :: 'l' :: rest => some (.null, rest)
    | 't' :: 'r' :: 'u' :: 'e' :: rest => some (.bool true, rest)
    | 'f' :: 'a' :: 'l' :: 's' :: 'e' :: rest => some (.bool false, rest)
    | cs => (takeNumber? cs).map fun (value, rest) => (.number value, rest)

/-- Reads the items of an array, at least one, up to the closing bracket. -/
def readItems? : Nat → List Char → Option (List Document × List Char)
  | 0, _ => none
  | fuel + 1, cs => do
    let (item, rest) ← readDocument? fuel cs
    match skipBlanks rest with
    | ']' :: rest => some ([item], rest)
    | ',' :: rest => (readItems? fuel rest).map fun (items, rest) => (item :: items, rest)
    | _ => none

/-- Reads the members of an object, at least one, up to the closing brace. -/
def readMembers? : Nat → List Char → Option (List (Option String × Document) × List Char)
  | 0, _ => none
  | fuel + 1, cs => do
    let .cons '"' rest := skipBlanks cs | none
    let (name, rest) ← readString? rest
    let .cons ':' rest := skipBlanks rest | none
    let (value, rest) ← readDocument? fuel rest
    match skipBlanks rest with
    | '}' :: rest => some ([(name, value)], rest)
    | ',' :: rest =>
      (readMembers? fuel rest).map fun (members, rest) => ((name, value) :: members, rest)
    | _ => none

end

/-- The document that a text writes. Each character opens at most two readings, so twice the length
of the text suffices. -/
def Document.read? (text : String) : Option Document := do
  let cs := text.toList
  let (document, rest) ← readDocument? (2 * cs.length + 1) cs
  if (skipBlanks rest).isEmpty then some document else none

end WhereClause.Json
