import WhereClause.Config.Error
import WhereClause.Token.Basic

/-!
# Lexical rules

The lexical rules of a clause are three lists: symbols, which always stand for themselves, even
inside a word; quotes, which enclose text; and delimiters, which end a word and mean nothing else.
A lexicon is a set of rules without an empty symbol.

The main operation is the search for the leftmost symbol of a text. Where two symbols start at one
place, the longer one counts. While a clause is still being read, a text that may yet grow into a
longer symbol is left alone.
-/

namespace WhereClause

/-! ## Characters of a text -/

-- A statement about the characters of a text is decided along the text. The priority is above that
-- of the instances that would go through all characters there are.

instance (priority := 2000) decidableForallText {p : Char → Prop} [DecidablePred p]
    (text : List Char) : Decidable (∀ c ∈ text, p c) :=
  List.decidableBAll p text

instance (priority := 2000) decidableForallOption {p : Char → Prop} [DecidablePred p]
    (c : Option Char) : Decidable (∀ d ∈ c, p d) :=
  match c with
  | none => isTrue (by simp)
  | some c => decidable_of_iff (p c) (by simp)

/-! ## Rules -/

/-- Lexical rules as they are configured. -/
structure LexicalRules where
  /-- Texts that form a token of their own wherever they occur. -/
  symbols : List String
  /-- Characters that open and close quoted text. -/
  quotes : List Char
  /-- Characters that separate words. -/
  delimiters : List Char
deriving DecidableEq, Repr

namespace LexicalRules

/-- Parentheses, the comma, arithmetic and comparison; three quotes; blanks and line ends. -/
def standard : LexicalRules where
  symbols := ["(", ")", ",", "*", "/", "%", "+", "-", "=", "!=", "<", ">", "<=", ">="]
  quotes := ['"', '\'', '\x60']
  delimiters := [' ', '\n', '\r', '\t']

instance : Inhabited LexicalRules := ⟨standard⟩

/-- Adds a symbol, unless it is there. -/
def withSymbol (rules : LexicalRules) (symbol : String) : LexicalRules :=
  if rules.symbols.contains symbol then
    rules
  else
    { rules with symbols := rules.symbols ++ [symbol] }

end LexicalRules

/-- Lexical rules without an empty symbol. -/
structure Lexicon where
  /-- Texts that form a token of their own wherever they occur. -/
  symbols : List (List Char)
  /-- Characters that open and close quoted text. -/
  quotes : List Char
  /-- Characters that separate words. -/
  delimiters : List Char
  /-- Every symbol has a character. -/
  symbols_ne_nil : [] ∉ symbols

/-- The lexicon of the rules, if no symbol is empty. -/
def LexicalRules.lexicon (rules : LexicalRules) : Except ConfigError Lexicon :=
  if h : [] ∈ rules.symbols.map String.toList then
    .error .emptySymbol
  else
    .ok ⟨rules.symbols.map String.toList, rules.quotes, rules.delimiters, h⟩

/-! ## Bytes -/

/-- The number of bytes of a text. -/
def byteSize : List Char → Nat
  | [] => 0
  | c :: rest => c.utf8Size + byteSize rest

@[simp]
theorem byteSize_nil : byteSize [] = 0 := rfl

@[simp]
theorem byteSize_cons (c : Char) (rest : List Char) :
    byteSize (c :: rest) = c.utf8Size + byteSize rest := rfl

@[simp]
theorem byteSize_append (s t : List Char) : byteSize (s ++ t) = byteSize s + byteSize t := by
  induction s with
  | nil => simp
  | cons c rest ih => simp [ih, Nat.add_assoc]

theorem utf8ByteSize_ofList (text : List Char) :
    (String.ofList text).utf8ByteSize = byteSize text := by
  induction text with
  | nil => rfl
  | cons c rest ih => simp [String.ofList_cons, ih]

theorem byteSize_toList (s : String) : byteSize s.toList = s.utf8ByteSize := by
  rw [← utf8ByteSize_ofList, String.ofList_toList]

/-- Of the characters `text`, latest first, the fewest latest ones that take at least `bytes` bytes,
in reading order before `seen`, and the earlier ones, latest first. -/
def latest (bytes : Nat) (seen : List Char) : List Char → List Char × List Char
  | [] => (seen, [])
  | c :: earlier =>
    if bytes = 0 then (seen, c :: earlier) else latest (bytes - c.utf8Size) (c :: seen) earlier

theorem latest_append (bytes : Nat) (seen text : List Char) :
    (latest bytes seen text).2.reverse ++ (latest bytes seen text).1 = text.reverse ++ seen := by
  fun_induction latest bytes seen text <;> simp_all

/-! ## Symbols in a text -/

/-- A text around a symbol. -/
structure Cut where
  /-- The text before the symbol. -/
  before : List Char
  /-- The symbol. -/
  symbol : List Char
  /-- The text after the symbol. -/
  after : List Char
deriving DecidableEq, Repr

namespace Lexicon

variable (l : Lexicon)

/-- The lexicon of the standard rules. -/
def standard : Lexicon where
  symbols := LexicalRules.standard.symbols.map String.toList
  quotes := LexicalRules.standard.quotes
  delimiters := LexicalRules.standard.delimiters
  symbols_ne_nil := by decide

instance : Inhabited Lexicon := ⟨standard⟩

/-- Whether the character opens and closes quoted text. -/
def isQuote (c : Char) : Bool :=
  l.quotes.contains c

/-- Whether the character separates words. -/
def isDelimiter (c : Char) : Bool :=
  l.delimiters.contains c

/-- The number of bytes of the longest symbol. -/
def reach : Nat :=
  (l.symbols.map byteSize).foldr max 0

/-- The longest symbol of at most `n` characters that starts the text. -/
def symbolUpTo? (text : List Char) : Nat → Option (List Char)
  | 0 => none
  | n + 1 =>
    if l.symbols.contains (text.take (n + 1)) then
      some (text.take (n + 1))
    else
      symbolUpTo? text n

/-- The longest symbol that starts the text. -/
def symbolAt? (text : List Char) : Option (List Char) :=
  l.symbolUpTo? text text.length

/-- Whether the text begins a symbol that is longer than it. -/
def mayGrow (text : List Char) : Bool :=
  l.symbols.any fun symbol => text.length < symbol.length && text.isPrefixOf symbol

/-- Cuts the text at its leftmost symbol. Unless the text is `final`, there is no cut at or after a
place from which on the text may yet grow into a symbol. -/
def findSymbol? (final : Bool) : List Char → Option Cut
  | [] => none
  | c :: rest =>
    if !final && l.mayGrow (c :: rest) then
      none
    else
      match l.symbolAt? (c :: rest) with
      | some symbol => some ⟨[], symbol, (c :: rest).drop symbol.length⟩
      | none => (findSymbol? final rest).map fun cut => { cut with before := c :: cut.before }

/-- Cuts a text, given latest character first, at the leftmost symbol among the latest characters
that a symbol can reach. -/
def cutLatest? (final : Bool) (text : List Char) : Option Cut :=
  (l.findSymbol? final (latest l.reach [] text).1).map fun cut =>
    { cut with before := (latest l.reach [] text).2.reverse ++ cut.before }

variable {l}

theorem take_of_symbolUpTo? {text symbol : List Char} {n : Nat}
    (h : l.symbolUpTo? text n = some symbol) :
    ∃ k < n, symbol = text.take (k + 1) ∧ symbol ∈ l.symbols := by
  induction n with
  | zero => simp [symbolUpTo?] at h
  | succ n ih =>
    rw [symbolUpTo?] at h
    split at h
    · exact ⟨n, by omega, by simp_all, by simp_all⟩
    · obtain ⟨k, hk, hs⟩ := ih h
      exact ⟨k, by omega, hs⟩

theorem ne_nil_of_symbolAt? {text symbol : List Char} (h : l.symbolAt? text = some symbol) :
    symbol ≠ [] := by
  obtain ⟨_, _, _, hs⟩ := take_of_symbolUpTo? h
  exact fun he => l.symbols_ne_nil (he ▸ hs)

theorem append_drop_of_symbolAt? {text symbol : List Char} (h : l.symbolAt? text = some symbol) :
    symbol ++ text.drop symbol.length = text := by
  obtain ⟨k, _, hs, _⟩ := take_of_symbolUpTo? h
  have hp : symbol <+: text := hs ▸ List.take_prefix _ _
  exact List.prefix_iff_eq_append.1 hp

/-- A cut loses nothing. -/
theorem append_of_findSymbol? {final : Bool} {text : List Char} {cut : Cut}
    (h : l.findSymbol? final text = some cut) :
    cut.before ++ cut.symbol ++ cut.after = text ∧ cut.symbol ≠ [] := by
  induction text generalizing cut with
  | nil => simp [findSymbol?] at h
  | cons c rest ih =>
    rw [findSymbol?] at h
    split at h
    · simp at h
    · split at h
      · rename_i symbol hs
        cases h
        exact ⟨by simpa using append_drop_of_symbolAt? hs, ne_nil_of_symbolAt? hs⟩
      · obtain ⟨inner, hi, rfl⟩ := Option.map_eq_some_iff.1 h
        have := ih hi
        exact ⟨by simp [← this.1], this.2⟩

theorem append_of_cutLatest? {final : Bool} {text : List Char} {cut : Cut}
    (h : l.cutLatest? final text = some cut) :
    cut.before ++ cut.symbol ++ cut.after = text.reverse ∧ cut.symbol ≠ [] := by
  obtain ⟨inner, hi, rfl⟩ := Option.map_eq_some_iff.1 h
  obtain ⟨ha, hn⟩ := append_of_findSymbol? hi
  have := latest_append l.reach [] text
  exact ⟨by simp_all [List.append_assoc], hn⟩

/-- What stands after a cut is shorter than the text. -/
theorem length_after_lt {final : Bool} {text : List Char} {cut : Cut}
    (h : l.cutLatest? final text = some cut) : cut.after.length < text.length := by
  obtain ⟨ha, hn⟩ := append_of_cutLatest? h
  have hl := congrArg List.length ha
  have := List.length_pos_iff.2 hn
  simp at hl
  omega

end Lexicon

end WhereClause
