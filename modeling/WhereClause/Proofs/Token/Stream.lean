import WhereClause.Proofs.Token.Run

/-!
# Clauses in pieces

A clause may be fed to a lexer in pieces, cut anywhere: inside of a word, a symbol, quoted text or
an escape. All that the lexer remembers is its state, so the pieces give the tokens of the whole
clause at the same places. A token that has been given out is never taken back: it is a token of the
clause, whatever follows.
-/

namespace WhereClause.Lexicon

variable (l : Lexicon)

/-- Feeds pieces one after another: the tokens that each of them completes, and the state after the
last one. -/
def feedPieces (lexer : Lexer) : List String → List (List Token) × Lexer
  | [] => ([], lexer)
  | piece :: rest =>
    let (tokens, lexer) := l.feed lexer piece.toList
    let (more, lexer) := feedPieces lexer rest
    (tokens :: more, lexer)

variable {l}

theorem feedPieces_append (lexer : Lexer) (fed rest : List String) :
    l.feedPieces lexer (fed ++ rest) =
      ((l.feedPieces lexer fed).1 ++ (l.feedPieces (l.feedPieces lexer fed).2 rest).1,
        (l.feedPieces (l.feedPieces lexer fed).2 rest).2) := by
  induction fed generalizing lexer with
  | nil => rfl
  | cons piece fed ih => simp [feedPieces, ih]

/-- Pieces are read as the text that they make up, from whatever state. -/
theorem feed_join (lexer : Lexer) (pieces : List String) :
    l.feed lexer (String.join pieces).toList =
      ((l.feedPieces lexer pieces).1.flatten, (l.feedPieces lexer pieces).2) := by
  induction pieces generalizing lexer with
  | nil => rfl
  | cons piece rest ih =>
    rw [String.join_cons, String.toList_append, feed_append, ih]
    rfl

theorem run_join (lexer : Lexer) (pieces : List String) :
    l.run lexer (String.join pieces).toList =
      (l.feedPieces lexer pieces).1.flatten ++ l.finish (l.feedPieces lexer pieces).2 := by
  rw [run, feed_join]

/-- The state knows how many bytes have been read. -/
theorem offset_feedPieces (lexer : Lexer) (pieces : List String) :
    (l.feedPieces lexer pieces).2.offset = lexer.offset + (String.join pieces).utf8ByteSize := by
  have hoffset := l.offset_feed lexer (String.join pieces).toList
  rwa [feed_join, byteSize_toList] at hoffset

/-- What is given out after some text is what a longer text begins with. -/
theorem feed_prefix_run (lexer : Lexer) (text rest : List Char) :
    (l.feed lexer text).1 <+: l.run lexer (text ++ rest) := by
  rw [run_append]
  exact List.prefix_append _ _

/-- However a clause is cut into pieces, feeding them one by one gives its tokens. After the first
few of them, the state tells how many bytes these have, and the tokens given out so far are the
first ones of every clause that begins with them. -/
theorem tokenize_join_pieces (l : Lexicon) (pieces : List String) :
    l.tokenize (String.join pieces) =
        (l.feedPieces {} pieces).1.flatten ++ l.finish (l.feedPieces {} pieces).2 ∧
      ∀ fed, fed <+: pieces →
        (l.feedPieces {} fed).1 <+: (l.feedPieces {} pieces).1 ∧
        (l.feedPieces {} fed).2.offset = (String.join fed).utf8ByteSize ∧
        ∀ rest : String,
          (l.feedPieces {} fed).1.flatten <+: l.tokenize (String.join fed ++ rest) := by
  refine ⟨run_join {} pieces, ?_⟩
  rintro fed ⟨later, rfl⟩
  refine ⟨?_, ?_, fun rest => ?_⟩
  · rw [feedPieces_append]
    exact List.prefix_append _ _
  · rw [offset_feedPieces]
    exact Nat.zero_add _
  · have hfirst : (l.feed {} (String.join fed).toList).1 = (l.feedPieces {} fed).1.flatten := by
      rw [feed_join]
    rw [tokenize_eq_scan, String.toList_append, ← hfirst]
    exact feed_prefix_run {} _ _

/-- A symbol and the escape of a quote are cut in two, and one piece is empty. -/
theorem tokenize_symbol_and_escape :
    ["é <", "= \"b\\"] <+: ["é <", "= \"b\\", "", "\"c\" d"] ∧
      (standard.feedPieces {} ["é <", "= \"b\\"]).2.offset = 9 ∧
      (standard.feedPieces {} ["é <", "= \"b\\"]).1.flatten <+:
        standard.tokenize "é <= \"b\\\"c\" d" :=
  have hfed : ["é <", "= \"b\\"] <+: ["é <", "= \"b\\", "", "\"c\" d"] := by decide
  have hlater := (tokenize_join_pieces standard ["é <", "= \"b\\", "", "\"c\" d"]).2 _ hfed
  ⟨hfed, hlater.2.1, hlater.2.2 "\"c\" d"⟩

end WhereClause.Lexicon
