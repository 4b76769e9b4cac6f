import WhereClause.Proofs.Expr.Tokens

/-!
# Seams between texts

What a token says does not depend on where it stands: at another offset, a text is cut into tokens
of the same kinds. And as long as no quoted text is open at its end, a text is cut into these tokens
whatever follows, if that begins with a blank or a symbol that ends a word.
-/

namespace WhereClause

/-! ## Offsets -/

namespace Lexer.Mode

/-- What is being read, without its place. -/
def unplaced : Lexer.Mode → Lexer.Mode
  | .neutral => .neutral
  | .word held => .word ⟨0, held.text⟩
  | .quoted quote _ text escaped => .quoted quote 0 text escaped

/-- Whether quoted text is being read. -/
def isQuoted : Lexer.Mode → Bool
  | .quoted _ _ _ _ => true
  | _ => false

theorem isQuoted_unplaced (mode : Lexer.Mode) : mode.unplaced.isQuoted = mode.isQuoted := by
  cases mode <;> rfl

end Lexer.Mode

theorem Token.kind_ofSymbol (symbol : List Char) (span span' : Span) :
    (ofSymbol symbol span).kind = (ofSymbol symbol span').kind := by
  unfold ofSymbol
  split <;> rfl

namespace Lexicon

variable {l : Lexicon}

theorem kinds_wordAt (start start' : Nat) (word : List Char) :
    (wordAt start word).map Token.kind = (wordAt start' word).map Token.kind := by
  unfold wordAt
  split
  · rfl
  · simp [ofWord_kind]

/-- The same is cut out of the characters held, wherever they stand. -/
theorem kinds_split (final : Bool) (text : List Char) (start start' : Nat) :
    (l.split final ⟨start, text⟩).1.map Token.kind =
        (l.split final ⟨start', text⟩).1.map Token.kind ∧
      (l.split final ⟨start, text⟩).2.text = (l.split final ⟨start', text⟩).2.text := by
  induction hn : text.length using Nat.strongRecOn generalizing text start start' with
  | ind n ih =>
    cases hc : l.cutLatest? final text with
    | none =>
      have hs (start : Nat) : l.split final ⟨start, text⟩ = ([], ⟨start, text⟩) := split_of_none hc
      rw [hs, hs]
      exact ⟨rfl, rfl⟩
    | some cut =>
      have hlt : cut.after.reverse.length < n := by simpa [← hn] using length_after_lt hc
      obtain ⟨hk, ht⟩ := ih _ hlt cut.after.reverse
        (start + byteSize cut.before + byteSize cut.symbol)
        (start' + byteSize cut.before + byteSize cut.symbol) rfl
      have hs (start : Nat) : l.split final ⟨start, text⟩ = _ := split_of_some hc
      rw [hs start, hs start']
      simp only [List.map_append, List.map_cons, hk, ht, and_true]
      rw [kinds_wordAt start start', Token.kind_ofSymbol]

/-- Tokens of the same kinds, and the same state without its place. -/
def Agree (a b : List Token × Lexer.Mode) : Prop :=
  a.1.map Token.kind = b.1.map Token.kind ∧ a.2.unplaced = b.2.unplaced

theorem kinds_endWord (text : List Char) (start start' : Nat) :
    (l.endWord ⟨start, text⟩).map Token.kind = (l.endWord ⟨start', text⟩).map Token.kind := by
  obtain ⟨hk, ht⟩ := kinds_split (l := l) true text start start'
  simp only [endWord, List.map_append, hk, tokens_eq_wordAt, ht]
  rw [kinds_wordAt]

theorem agree_stepWord (offset offset' start start' : Nat) (text : List Char) (c : Char) :
    Agree (l.stepWord offset ⟨start, text⟩ c) (l.stepWord offset' ⟨start', text⟩ c) := by
  unfold stepWord
  split
  · exact ⟨kinds_endWord text start start', rfl⟩
  · split
    · obtain ⟨hk, ht⟩ := kinds_split (l := l) true text start start'
      generalize l.split true ⟨start, text⟩ = p at hk ht
      generalize l.split true ⟨start', text⟩ = q at hk ht
      obtain ⟨tokens, start₁, text₁⟩ := p
      obtain ⟨tokens', start₁', text₁'⟩ := q
      obtain rfl : text₁ = text₁' := ht
      obtain ⟨hk', ht'⟩ := kinds_split (l := l) false (c :: text₁) start₁ start₁'
      dsimp only
      split
      · exact ⟨hk, rfl⟩
      · refine ⟨?_, ?_⟩
        · simp only [List.map_append, hk, Held.push, hk']
        · simp only [Lexer.Mode.unplaced, Held.push, ht']
    · obtain ⟨hk, ht⟩ := kinds_split (l := l) false (c :: text) start start'
      refine ⟨hk, ?_⟩
      simp only [Held.push, ht]
      by_cases he : (l.split false ⟨start', c :: text⟩).2.text.isEmpty = true
      · simp only [he, if_true]
      · simp only [he, Bool.false_eq_true, if_false, Lexer.Mode.unplaced, ht]

theorem agree_stepMode_unplaced (offset : Nat) (mode : Lexer.Mode) (c : Char) :
    Agree (l.stepMode offset mode c) (l.stepMode 0 mode.unplaced c) := by
  cases mode with
  | neutral =>
    simp only [Lexer.Mode.unplaced, stepMode]
    by_cases hq : l.isQuote c = true
    · simp only [hq, if_true]
      exact ⟨rfl, rfl⟩
    · by_cases hd : l.isDelimiter c = true
      · simp only [hq, hd, Bool.false_eq_true, if_false, if_true]
        exact ⟨rfl, rfl⟩
      · simp only [hq, hd, Bool.false_eq_true, if_false]
        exact agree_stepWord offset 0 offset 0 [] c
  | word held => exact agree_stepWord offset 0 held.start 0 held.text c
  | quoted quote start text escaped =>
    simp only [Lexer.Mode.unplaced, stepMode, stepQuoted]
    by_cases hc : c = quote
    · cases escaped <;> simp only [hc, Bool.false_eq_true, if_false, if_true] <;> exact ⟨rfl, rfl⟩
    · simp only [hc, if_false]
      exact ⟨rfl, rfl⟩

theorem agree_stepMode {mode mode' : Lexer.Mode} (h : mode.unplaced = mode'.unplaced)
    (offset offset' : Nat) (c : Char) :
    Agree (l.stepMode offset mode c) (l.stepMode offset' mode' c) := by
  obtain ⟨hk, hm⟩ := agree_stepMode_unplaced (l := l) offset mode c
  obtain ⟨hk', hm'⟩ := agree_stepMode_unplaced (l := l) offset' mode' c
  rw [h] at hk hm
  exact ⟨hk.trans hk'.symm, hm.trans hm'.symm⟩

/-- The same characters are read alike from states that only differ in their places. -/
theorem agree_feed {mode mode' : Lexer.Mode} (h : mode.unplaced = mode'.unplaced)
    (offset offset' : Nat) (text : List Char) :
    Agree ((l.feed ⟨mode, offset⟩ text).1, (l.feed ⟨mode, offset⟩ text).2.mode)
      ((l.feed ⟨mode', offset'⟩ text).1, (l.feed ⟨mode', offset'⟩ text).2.mode) := by
  induction text generalizing mode mode' offset offset' with
  | nil => exact ⟨rfl, h⟩
  | cons c text ih =>
    obtain ⟨hk, hm⟩ := agree_stepMode (l := l) h offset offset' c
    obtain ⟨hk', hm'⟩ := ih hm (offset + c.utf8Size) (offset' + c.utf8Size)
    refine ⟨?_, hm'⟩
    simp only [feed, step, List.map_append] at hk hk' ⊢
    rw [hk, hk']

theorem kinds_finish_unplaced (mode : Lexer.Mode) (offset : Nat) :
    (l.finish ⟨mode, offset⟩).map Token.kind = (l.finish ⟨mode.unplaced, 0⟩).map Token.kind := by
  cases mode with
  | neutral => rfl
  | word held => exact kinds_endWord held.text held.start 0
  | quoted => rfl

end Lexicon

open Lexicon

/-- At any offset a text is cut into tokens of the same kinds. -/
theorem kindsAt_offset (offset offset' : Nat) (text : List Char) :
    kindsAt offset text = kindsAt offset' text := by
  have hneutral : Lexer.Mode.neutral.unplaced = Lexer.Mode.neutral.unplaced := rfl
  obtain ⟨hk, hm⟩ := agree_feed (l := standard) hneutral offset offset' text
  have hm : (standard.feed ⟨.neutral, offset⟩ text).2.mode.unplaced = _ := hm
  simp only [kindsAt, scan, run, List.map_append]
  rw [hk, kinds_finish_unplaced, hm, ← kinds_finish_unplaced]

/-! ## Seams -/

namespace Lexicon

variable {rest : List Char}

theorem keeping_feed {mode : Lexer.Mode} (h : Keeping mode) (offset : Nat) (text : List Char) :
    Keeping (standard.feed ⟨mode, offset⟩ text).2.mode := by
  induction text generalizing mode offset with
  | nil => exact h
  | cons c text ih => exact ih (lexical_stepMode h offset c).2 (offset + c.utf8Size)

/-- What ends a word gives out what is held, and is then read as if nothing stood before it. -/
theorem kinds_run_word {held : Held} (h : Growing held.text) (hr : Ends rest) (offset : Nat) :
    ∃ stop, (standard.run ⟨.word held, offset⟩ rest).map Token.kind =
      (standard.endWord held).map Token.kind ++ kindsAt stop rest := by
  cases rest with
  | nil => exact ⟨offset, by simp [finish, kindsAt]⟩
  | cons c rest =>
    rcases hr c rfl with hd | ⟨hs, hg, he⟩
    · refine ⟨offset, ?_⟩
      rw [kindsAt, scan_delimiter hd, run_cons, step, stepMode, stepWord, if_pos hd,
        List.map_append]
      rfl
    · obtain ⟨hq, hd⟩ := not_isQuote_of_mem _ hs c (by simp)
      have hone := utf8Size_of_mem hs
      obtain ⟨start, text⟩ := held
      cases text with
      | nil => exact absurd rfl h.ne_nil
      | cons z text =>
        have hpair : [z, c] ∉ standard.symbols := fun hm => he (eq_of_pair_mem hm)
        refine ⟨offset, ?_⟩
        rw [kindsAt, scan_single hs hg, run_cons, step, stepMode, stepWord, if_neg (by simp [hd]),
          if_neg (by simp [hq]), Held.push]
        by_cases hz : [z] ∈ standard.symbols
        · -- a bracket was held: it is a token, and so is the symbol after it
          have hcut : standard.cutLatest? false (c :: z :: text) =
              some ⟨text.reverse, [z], [c]⟩ := by
            rw [cutLatest?_pair false hone, if_neg hpair, if_pos hz]
          have hend : standard.split true ⟨start, z :: text⟩ = _ :=
            split_of_some (split_final_eq h hz)
          rw [endWord, hend, split_of_some hcut]
          simp [split_symbol hs hg, split_empty, Held.tokens, scan, Token.kind_ofSymbol [c] _ {}]
        · have hcut : standard.cutLatest? false (c :: z :: text) =
              some ⟨(z :: text).reverse, [c], []⟩ := by
            rw [cutLatest?_pair false hone, if_neg hpair, if_neg hz, if_neg (by simp [hg]),
              if_pos hs]
          rw [endWord, split_final h hz, split_of_some hcut]
          simp [split_empty, tokens_eq_wordAt, scan, Token.kind_ofSymbol [c] _ {}]

/-- A state in which no quoted text is open. -/
theorem kinds_run {mode : Lexer.Mode} (hk : Keeping mode) (hm : mode.isQuoted = false)
    (hr : Ends rest) (offset : Nat) :
    ∃ stop, (standard.run ⟨mode, offset⟩ rest).map Token.kind =
      (standard.finish ⟨mode, offset⟩).map Token.kind ++ kindsAt stop rest := by
  cases mode with
  | neutral => exact ⟨offset, rfl⟩
  | word held => exact kinds_run_word hk hr offset
  | quoted => cases hm

end Lexicon

/-- A text after which no quoted text is open is cut into its tokens, whatever ends it. -/
theorem lexes_of_not_isQuoted {text : List Char}
    (h : (standard.feed {} text).2.mode.isQuoted = false) : Lexes text (kindsAt 0 text) True := by
  intro offset rest hr
  refine ⟨fun _ => ?_, fun hn => absurd trivial hn⟩
  have hneutral : Lexer.Mode.neutral.unplaced = Lexer.Mode.neutral.unplaced := rfl
  obtain ⟨-, hm⟩ := agree_feed (l := standard) hneutral 0 offset text
  have hq : (standard.feed ⟨.neutral, offset⟩ text).2.mode.isQuoted = false := by
    rw [← Lexer.Mode.isQuoted_unplaced, ← hm, Lexer.Mode.isQuoted_unplaced]
    exact h
  have hkeep := keeping_feed (show Keeping .neutral from trivial) offset text
  obtain ⟨stop, hs⟩ := kinds_run hkeep hq hr (standard.feed ⟨.neutral, offset⟩ text).2.offset
  have hall : kindsAt offset text = (standard.feed ⟨.neutral, offset⟩ text).1.map Token.kind ++
      (standard.finish (standard.feed ⟨.neutral, offset⟩ text).2).map Token.kind :=
    List.map_append
  refine ⟨stop, ?_⟩
  rw [kindsAt_offset 0 offset, hall, List.append_assoc]
  exact (congrArg _ (run_append _ _ _)).trans (List.map_append.trans (congrArg _ hs))

end WhereClause
