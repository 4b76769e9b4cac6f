import WhereClause.Token.Lexicon

/-!
# Reading tokens

A lexer reads a clause one character at a time and gives out each token as soon as the characters
read so far decide it. All that it remembers is its state, so a clause may be fed in pieces.

Reading never fails: quoted text that is not closed ends with the clause.
-/

namespace WhereClause

/-! ## States -/

/-- Characters of a word that are not yet part of a token. -/
structure Held where
  /-- Offset of the first character. -/
  start : Nat
  /-- The characters, latest first. -/
  text : List Char
deriving DecidableEq, Repr

namespace Held

/-- Adds a character at the end. -/
def push (held : Held) (c : Char) : Held :=
  { held with text := c :: held.text }

/-- The word that is held, or nothing if there are no characters. -/
def tokens (held : Held) : List Token :=
  if held.text.isEmpty then
    []
  else
    [.ofWord held.text.reverse ⟨held.start, held.start + byteSize held.text⟩]

end Held

/-- What a lexer is reading. -/
inductive Lexer.Mode
  /-- Nothing: the last token is complete. -/
  | neutral
  /-- A word. -/
  | word (held : Held)
  /-- Quoted text that starts at `start`; `text` is what stands after the quote, latest first, and
  `escaped` tells that its last character is a backslash that takes the next quote as text. -/
  | quoted (quote : Char) (start : Nat) (text : List Char) (escaped : Bool)
deriving DecidableEq, Repr

/-- The state of reading. -/
structure Lexer where
  /-- What is being read. -/
  mode : Lexer.Mode := .neutral
  /-- Number of bytes read. -/
  offset : Nat := 0
deriving DecidableEq, Repr, Inhabited

namespace Lexicon

variable (l : Lexicon)

/-! ## Words -/

/-- Cuts all symbols out of the characters held: the tokens, and what is still held. -/
def split (final : Bool) (held : Held) : List Token × Held :=
  match _h : l.cutLatest? final held.text with
  | none => ([], held)
  | some cut =>
    let start := held.start + byteSize cut.before
    let stop := start + byteSize cut.symbol
    let word : Held := ⟨held.start, cut.before.reverse⟩
    let (tokens, rest) := split final ⟨stop, cut.after.reverse⟩
    (word.tokens ++ .ofSymbol cut.symbol ⟨start, stop⟩ :: tokens, rest)
termination_by held.text.length
decreasing_by simpa using length_after_lt _h

/-- The tokens of the characters held, when the word has ended. -/
def endWord (held : Held) : List Token :=
  let (tokens, rest) := l.split true held
  tokens ++ rest.tokens

/-- Reads a character of a word. A quote directly after a symbol opens quoted text; inside a word it
is a character like others. -/
def stepWord (offset : Nat) (held : Held) (c : Char) : List Token × Lexer.Mode :=
  if l.isDelimiter c then
    (l.endWord held, .neutral)
  else if l.isQuote c then
    let (tokens, held) := l.split true held
    if held.text.isEmpty then
      (tokens, .quoted c offset [] false)
    else
      let (more, held) := l.split false (held.push c)
      (tokens ++ more, .word held)
  else
    let (tokens, held) := l.split false (held.push c)
    (tokens, if held.text.isEmpty then .neutral else .word held)

/-! ## Quoted text -/

/-- The token of quoted text. -/
def quotedToken (quote : Char) (text : List Char) (span : Span) : Token :=
  ⟨.literal (.string (String.ofList text.reverse)) (some quote), span⟩

/-- Reads a character of quoted text. A backslash that is not itself escaped makes the next quote
part of the text and is dropped before it; otherwise it stays. -/
def stepQuoted (offset : Nat) (quote : Char) (start : Nat) (text : List Char) (escaped : Bool)
    (c : Char) : List Token × Lexer.Mode :=
  if c = quote then
    if escaped then
      ([], .quoted quote start (c :: text.drop 1) false)
    else
      ([quotedToken quote text ⟨start, offset + c.utf8Size⟩], .neutral)
  else
    ([], .quoted quote start (c :: text) (c == '\\' && !escaped))

/-! ## Reading -/

/-- Reads a character: the tokens it completes, and what is being read after it. -/
def stepMode (offset : Nat) (mode : Lexer.Mode) (c : Char) : List Token × Lexer.Mode :=
  match mode with
  | .neutral =>
    if l.isQuote c then
      ([], .quoted c offset [] false)
    else if l.isDelimiter c then
      ([], .neutral)
    else
      l.stepWord offset ⟨offset, []⟩ c
  | .word held => l.stepWord offset held c
  | .quoted quote start text escaped => stepQuoted offset quote start text escaped c

/-- Reads a character. -/
def step (lexer : Lexer) (c : Char) : List Token × Lexer :=
  let (tokens, mode) := l.stepMode lexer.offset lexer.mode c
  (tokens, ⟨mode, lexer.offset + c.utf8Size⟩)

/-- Reads a piece of a clause: the tokens it completes, and the state after it. -/
def feed (lexer : Lexer) : List Char → List Token × Lexer
  | [] => ([], lexer)
  | c :: rest =>
    let (tokens, lexer) := l.step lexer c
    let (more, lexer) := feed lexer rest
    (tokens ++ more, lexer)

/-- Ends the clause: the tokens that its end completes. -/
def finish (lexer : Lexer) : List Token :=
  match lexer.mode with
  | .neutral => []
  | .word held => l.endWord held
  | .quoted quote start text _ => [quotedToken quote text ⟨start, lexer.offset⟩]

/-- The tokens of a clause. -/
def tokenize (clause : String) : List Token :=
  let (tokens, lexer) := l.feed {} clause.toList
  tokens ++ l.finish lexer

/-! ## Feeding in pieces -/

theorem feed_append (lexer : Lexer) (s t : List Char) :
    l.feed lexer (s ++ t) =
      ((l.feed lexer s).1 ++ (l.feed (l.feed lexer s).2 t).1, (l.feed (l.feed lexer s).2 t).2) := by
  induction s generalizing lexer with
  | nil => simp [feed]
  | cons c rest ih => simp [feed, ih]

theorem offset_feed (lexer : Lexer) (s : List Char) :
    (l.feed lexer s).2.offset = lexer.offset + byteSize s := by
  induction s generalizing lexer with
  | nil => simp [feed]
  | cons c rest ih => simp [feed, ih, step, Nat.add_assoc]

end Lexicon

end WhereClause
