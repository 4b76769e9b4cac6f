import WhereClause.Proofs.Token.Run

/-!
# Searches of a lexer

A lexer looks at its symbols only in one way: it searches the characters held. Here are the searches
that it makes while it reads a clause, in order. Apart from quotes and delimiters, the tokens depend
on nothing else: lexicons that answer these searches alike give the same tokens.
-/

namespace WhereClause

/-- A search for a symbol in the characters held. -/
structure Search where
  /-- Whether the word has ended. -/
  final : Bool
  /-- The characters, latest first. -/
  text : List Char
deriving DecidableEq, Repr

namespace Lexicon

variable (l : Lexicon)

/-- The answer to a search, from the latest characters only. -/
def answer (search : Search) : Option Cut :=
  l.cutLatest? search.final search.text

/-! ## The searches of a clause -/

/-- The searches in cutting all symbols out of a text, given latest character first. -/
def splitSearches (final : Bool) (text : List Char) : List Search :=
  ⟨final, text⟩ ::
    match _h : l.cutLatest? final text with
    | none => []
    | some cut => splitSearches final cut.after.reverse
termination_by text.length
decreasing_by simpa using length_after_lt _h

/-- The searches at a character of a word. -/
def wordSearches (held : Held) (c : Char) : List Search :=
  if l.isDelimiter c then
    l.splitSearches true held.text
  else if l.isQuote c then
    let rest := (l.split true held).2
    l.splitSearches true held.text ++
      if rest.text.isEmpty then [] else l.splitSearches false (rest.push c).text
  else
    l.splitSearches false (held.push c).text

/-- The searches at a character. -/
def stepSearches (lexer : Lexer) (c : Char) : List Search :=
  match lexer.mode with
  | .neutral =>
    if l.isQuote c then []
    else if l.isDelimiter c then []
    else l.wordSearches ⟨lexer.offset, []⟩ c
  | .word held => l.wordSearches held c
  | .quoted _ _ _ _ => []

/-- The searches in reading a piece of a clause. -/
def feedSearches (lexer : Lexer) : List Char → List Search
  | [] => []
  | c :: rest => l.stepSearches lexer c ++ feedSearches (l.step lexer c).2 rest

/-- The searches at the end of a clause. -/
def finishSearches (lexer : Lexer) : List Search :=
  match lexer.mode with
  | .word held => l.splitSearches true held.text
  | _ => []

/-- The searches in reading a clause from its start to its end. -/
def searches (clause : String) : List Search :=
  l.feedSearches {} clause.toList ++ l.finishSearches (l.feed {} clause.toList).2

variable {l} {final : Bool} {text rest : List Char}

theorem splitSearches_of_none (h : l.cutLatest? final text = none) :
    l.splitSearches final text = [⟨final, text⟩] := by
  rw [splitSearches]
  split
  · rfl
  · rename_i hc
    rw [h] at hc
    cases hc

theorem splitSearches_of_some {cut : Cut} (h : l.cutLatest? final text = some cut) :
    l.splitSearches final text = ⟨final, text⟩ :: l.splitSearches final cut.after.reverse := by
  rw [splitSearches]
  split
  · rename_i hc
    rw [h] at hc
    cases hc
  · rename_i hc
    rw [h] at hc
    cases hc
    rfl

theorem mem_splitSearches_self : ⟨final, text⟩ ∈ l.splitSearches final text := by
  rw [splitSearches]
  exact List.mem_cons_self

theorem feedSearches_append (lexer : Lexer) (s t : List Char) :
    l.feedSearches lexer (s ++ t) =
      l.feedSearches lexer s ++ l.feedSearches (l.feed lexer s).2 t := by
  induction s generalizing lexer with
  | nil => rfl
  | cons c rest ih => simp [feedSearches, feed, ih]

/-! ## What the tokens depend on -/

variable {l' : Lexicon}

/-- The lexicons have the same quotes and delimiters. -/
structure SameMarks (l l' : Lexicon) : Prop where
  quote : ∀ c, l'.isQuote c = l.isQuote c
  delimiter : ∀ c, l'.isDelimiter c = l.isDelimiter c

theorem split_eq_of_answers {start : Nat}
    (h : ∀ search ∈ l.splitSearches final text, l'.answer search = l.answer search) :
    l'.split final ⟨start, text⟩ = l.split final ⟨start, text⟩ := by
  induction text using splitSearches.induct l final generalizing start with
  | case1 text ih =>
    have hself : l'.cutLatest? final text = l.cutLatest? final text := h _ mem_splitSearches_self
    cases hc : l.cutLatest? final text with
    | none => rw [split_of_none (hself.trans hc), split_of_none hc]
    | some cut =>
      rw [splitSearches_of_some hc] at h
      have hl : l.split final ⟨start, text⟩ = _ := split_of_some hc
      have hl' : l'.split final ⟨start, text⟩ = _ := split_of_some (hself.trans hc)
      rw [hl, hl', ih cut hc (List.forall_mem_cons.1 h).2]

theorem stepWord_eq_of_answers (hm : SameMarks l l') {offset : Nat} {held : Held} {c : Char}
    (h : ∀ search ∈ l.wordSearches held c, l'.answer search = l.answer search) :
    l'.stepWord offset held c = l.stepWord offset held c := by
  rw [wordSearches] at h
  rw [stepWord, stepWord, hm.quote, hm.delimiter]
  by_cases hd : l.isDelimiter c = true
  · rw [if_pos hd] at h
    rw [if_pos hd, if_pos hd, endWord, split_eq_of_answers h, endWord]
  · rw [if_neg hd] at h
    rw [if_neg hd, if_neg hd]
    by_cases hq : l.isQuote c = true
    · rw [if_pos hq, List.forall_mem_append] at h
      obtain ⟨hend, hmore⟩ := h
      rw [if_pos hq, if_pos hq, split_eq_of_answers hend]
      dsimp only
      by_cases he : (l.split true held).2.text.isEmpty = true
      · rw [if_pos he, if_pos he]
      · rw [if_neg he] at hmore
        rw [if_neg he, if_neg he, split_eq_of_answers hmore]
    · rw [if_neg hq] at h
      rw [if_neg hq, if_neg hq, split_eq_of_answers h]

theorem step_eq_of_answers (hm : SameMarks l l') {lexer : Lexer} {c : Char}
    (h : ∀ search ∈ l.stepSearches lexer c, l'.answer search = l.answer search) :
    l'.step lexer c = l.step lexer c := by
  obtain ⟨mode, offset⟩ := lexer
  have hmode : l'.stepMode offset mode c = l.stepMode offset mode c := by
    cases mode with
    | neutral =>
      simp only [stepSearches] at h
      rw [stepMode, stepMode, hm.quote, hm.delimiter]
      by_cases hq : l.isQuote c = true
      · rw [if_pos hq, if_pos hq]
      · rw [if_neg hq] at h
        rw [if_neg hq, if_neg hq]
        by_cases hd : l.isDelimiter c = true
        · rw [if_pos hd, if_pos hd]
        · rw [if_neg hd] at h
          rw [if_neg hd, if_neg hd, stepWord_eq_of_answers hm h]
    | word held => exact stepWord_eq_of_answers hm h
    | quoted quote start text escaped => rfl
  rw [step, step, hmode]

theorem feed_eq_of_answers (hm : SameMarks l l') {lexer : Lexer}
    (h : ∀ search ∈ l.feedSearches lexer text, l'.answer search = l.answer search) :
    l'.feed lexer text = l.feed lexer text := by
  induction text generalizing lexer with
  | nil => rfl
  | cons c rest ih =>
    obtain ⟨hstep, hrest⟩ := List.forall_mem_append.1 h
    simp only [feed, step_eq_of_answers hm hstep, ih hrest]

theorem finish_eq_of_answers {lexer : Lexer}
    (h : ∀ search ∈ l.finishSearches lexer, l'.answer search = l.answer search) :
    l'.finish lexer = l.finish lexer := by
  obtain ⟨mode, offset⟩ := lexer
  cases mode with
  | neutral => rfl
  | word held => simp only [finish, endWord, split_eq_of_answers h]
  | quoted quote start text escaped => rfl

/-- The answers to the searches that are made determine the tokens. -/
theorem tokenize_eq_of_answers (hm : SameMarks l l') {clause : String}
    (h : ∀ search ∈ l.searches clause, l'.answer search = l.answer search) :
    l'.tokenize clause = l.tokenize clause := by
  obtain ⟨hfeed, hfinish⟩ := List.forall_mem_append.1 h
  simp only [tokenize, feed_eq_of_answers hm hfeed, finish_eq_of_answers hfinish]

end Lexicon

end WhereClause
