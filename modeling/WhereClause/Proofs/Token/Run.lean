import WhereClause.Token.Lexer

/-!
# Runs of a lexer

What a lexer gives for all the rest of a clause, and what it gives for the characters it holds.
-/

namespace WhereClause.Lexicon

variable (l : Lexicon)

/-! ## The rest of a clause -/

/-- The tokens of the input and its end, in a state of reading. -/
def run (lexer : Lexer) (input : List Char) : List Token :=
  (l.feed lexer input).1 ++ l.finish (l.feed lexer input).2

/-- The tokens of the input, if it stands at `offset` after a complete token. -/
def scan (offset : Nat) (input : List Char) : List Token :=
  l.run ⟨.neutral, offset⟩ input

variable {l}

theorem tokenize_eq_scan (clause : String) : l.tokenize clause = l.scan 0 clause.toList := rfl

@[simp]
theorem run_nil (lexer : Lexer) : l.run lexer [] = l.finish lexer := rfl

theorem run_cons (lexer : Lexer) (c : Char) (rest : List Char) :
    l.run lexer (c :: rest) = (l.step lexer c).1 ++ l.run (l.step lexer c).2 rest := by
  rw [run, feed, List.append_assoc]
  rfl

theorem run_append (lexer : Lexer) (text rest : List Char) :
    l.run lexer (text ++ rest) = (l.feed lexer text).1 ++ l.run (l.feed lexer text).2 rest := by
  rw [run, feed_append, List.append_assoc]
  rfl

@[simp]
theorem scan_nil (offset : Nat) : l.scan offset [] = [] := rfl

/-! ## Characters held -/

/-- The word that starts at `start`, or nothing if there are no characters. -/
def wordAt (start : Nat) (word : List Char) : List Token :=
  if word.isEmpty then [] else [.ofWord word ⟨start, start + byteSize word⟩]

theorem byteSize_reverse (text : List Char) : byteSize text.reverse = byteSize text := by
  induction text with
  | nil => rfl
  | cons c text ih => simp [ih, Nat.add_comm]

theorem tokens_eq_wordAt (held : Held) : held.tokens = wordAt held.start held.text.reverse := by
  simp [Held.tokens, wordAt, byteSize_reverse]

theorem split_of_none {final : Bool} {held : Held} (h : l.cutLatest? final held.text = none) :
    l.split final held = ([], held) := by
  rw [split]
  split
  · rfl
  · rename_i hc
    rw [h] at hc
    cases hc

theorem split_of_some {final : Bool} {held : Held} {cut : Cut}
    (h : l.cutLatest? final held.text = some cut) :
    let at' := held.start + byteSize cut.before
    let stop := at' + byteSize cut.symbol
    let next := l.split final ⟨stop, cut.after.reverse⟩
    l.split final held =
      (wordAt held.start cut.before ++ .ofSymbol cut.symbol ⟨at', stop⟩ :: next.1, next.2) := by
  rw [split]
  split
  · rename_i hc
    rw [h] at hc
    cases hc
  · rename_i hc
    rw [h] at hc
    cases hc
    simp [tokens_eq_wordAt]

end WhereClause.Lexicon
