import Mathlib.Data.List.Basic
import WhereClause.Proofs.Operand.Quoting

/-!
# Tokens tile the text

Nothing of a clause is lost when it is cut into tokens: the spans of the tokens are slices of the
text, one after the other, and what stands between them are delimiters. Each token says what its
slice says; of quoted text, only the quotes around it and the backslashes that escape a quote are
missing.

This holds of any lexicon and any text. A step of the lexer keeps what is pending, the characters
from the end of the last token on, and so the rest of a run tiles the pending characters together
with the rest of the input.
-/

namespace WhereClause

/-! ## Escaped quotes -/

namespace Text

/-- At place `i` of the text stands a quote that is escaped: the run of backslashes directly before
it is odd. A quote that is itself a backslash is never escaped. -/
def EscapedAt (quote : Char) (text : List Char) (i : Nat) : Prop :=
  quote ≠ '\\' ∧ text[i]? = some quote ∧ Protects (text.take i)

instance (quote : Char) (text : List Char) (i : Nat) : Decidable (EscapedAt quote text i) :=
  inferInstanceAs (Decidable (_ ∧ _ ∧ _))

/-- The character at place `i` of the text, unless it is a backslash that escapes a quote. -/
def keptAt (quote : Char) (text : List Char) (i : Nat) : Option Char :=
  if EscapedAt quote text (i + 1) then none else text[i]?

/-- The text without the backslashes that escape a quote. -/
def unescape (quote : Char) (text : List Char) : List Char :=
  (List.range text.length).filterMap (keptAt quote text)

/-- All quotes of the text are escaped. -/
def Unbroken (quote : Char) (text : List Char) : Prop :=
  ∀ i < text.length, text[i]? = some quote → EscapedAt quote text i

instance (quote : Char) (text : List Char) : Decidable (Unbroken quote text) :=
  inferInstanceAs (Decidable (∀ i < text.length, _))

variable {quote c : Char} {text : List Char}

theorem protects_concat_iff (text : List Char) (c : Char) :
    Protects (text ++ [c]) ↔ c = '\\' ∧ ¬ Protects text := by
  unfold Protects backslashes
  rw [List.reverse_append, List.reverse_singleton, List.singleton_append, List.takeWhile_cons]
  by_cases hc : c = '\\'
  · simp only [hc, decide_true, if_true, List.length_cons, true_and]
    omega
  · simp [hc]

/-- A character at the end changes nothing before the last one. -/
theorem escapedAt_concat_of_lt {i : Nat} (h : i < text.length) :
    EscapedAt quote (text ++ [c]) i ↔ EscapedAt quote text i := by
  unfold EscapedAt
  rw [List.getElem?_append_left h, List.take_append_of_le_length (Nat.le_of_lt h)]

theorem escapedAt_concat_length :
    EscapedAt quote (text ++ [c]) text.length ↔ quote ≠ '\\' ∧ c = quote ∧ Protects text := by
  simp [EscapedAt]

theorem unbroken_concat_iff :
    Unbroken quote (text ++ [c]) ↔
      Unbroken quote text ∧ (c = quote → quote ≠ '\\' ∧ Protects text) := by
  constructor
  · intro h
    refine ⟨fun i hi hq => ?_, fun hc => ?_⟩
    · refine (escapedAt_concat_of_lt hi).1 (h i (by simp; omega) ?_)
      rwa [List.getElem?_append_left hi]
    · obtain ⟨hq, -, hp⟩ := escapedAt_concat_length.1 (h text.length (by simp) (by simp [hc]))
      exact ⟨hq, hp⟩
  · rintro ⟨h, hc⟩ i hi hq
    rw [List.length_append, List.length_singleton] at hi
    rcases Nat.lt_succ_iff_lt_or_eq.1 hi with hlt | rfl
    · rw [List.getElem?_append_left hlt] at hq
      exact (escapedAt_concat_of_lt hlt).2 (h i hlt hq)
    · have he : c = quote := by simpa using hq
      exact escapedAt_concat_length.2 ⟨(hc he).1, he, (hc he).2⟩

theorem keptAt_last (quote : Char) (text : List Char) (c : Char) :
    keptAt quote (text ++ [c]) text.length = some c := by
  have h : ¬ EscapedAt quote (text ++ [c]) (text.length + 1) := by simp [EscapedAt]
  rw [keptAt, if_neg h, List.getElem?_concat_length]

theorem keptAt_concat_of_lt {i : Nat} (h : i + 1 < text.length) :
    keptAt quote (text ++ [c]) i = keptAt quote text i := by
  simp only [keptAt, escapedAt_concat_of_lt h, List.getElem?_append_left (Nat.lt_of_succ_lt h)]

/-- The last character is kept with another one after it, unless that is a quote it escapes. -/
theorem keptAt_concat_concat (quote : Char) (text : List Char) (d c : Char) :
    keptAt quote (text ++ [d] ++ [c]) text.length =
      if quote ≠ '\\' ∧ c = quote ∧ Protects (text ++ [d]) then none else some d := by
  have hlen : text.length + 1 = (text ++ [d]).length := by simp
  unfold keptAt
  rw [List.getElem?_append_left (by simp), List.getElem?_concat_length, hlen]
  simp only [escapedAt_concat_length]

/-- A quote at the end takes the backslash away that escapes it. -/
theorem unescape_concat (quote : Char) (text : List Char) (c : Char) :
    unescape quote (text ++ [c]) =
      (if quote ≠ '\\' ∧ c = quote ∧ Protects text then (unescape quote text).dropLast
        else unescape quote text) ++ [c] := by
  have hrange (text : List Char) (c : Char) : unescape quote (text ++ [c]) =
      (List.range text.length).filterMap (keptAt quote (text ++ [c])) ++ [c] := by
    rw [unescape, List.length_append, List.length_singleton, List.range_succ,
      List.filterMap_append, List.filterMap_cons_some (keptAt_last quote text c),
      List.filterMap_nil]
  rw [hrange text c]
  congr 1
  rcases List.eq_nil_or_concat text with rfl | ⟨init, d, rfl⟩
  · simp [unescape]
  · -- only the last character before the end may be dropped
    rw [List.concat_eq_append, hrange init d, List.dropLast_concat, List.length_append,
      List.length_singleton, List.range_succ, List.filterMap_append]
    have hfront : (List.range init.length).filterMap (keptAt quote (init ++ [d] ++ [c])) =
        (List.range init.length).filterMap (keptAt quote (init ++ [d])) := by
      refine List.filterMap_congr fun i hi => keptAt_concat_of_lt ?_
      simpa using List.mem_range.1 hi
    rw [hfront]
    by_cases he : quote ≠ '\\' ∧ c = quote ∧ Protects (init ++ [d])
    · rw [if_pos he, List.filterMap_cons_none, List.filterMap_nil, List.append_nil]
      rw [keptAt_concat_concat, if_pos he]
    · rw [if_neg he, List.filterMap_cons_some, List.filterMap_nil]
      rw [keptAt_concat_concat, if_neg he]

end Text

/-! ## Tokens and their slices -/

namespace Lexicon

variable (l : Lexicon)

/-- What quoted text says, if `rest` follows it: it ends with the first quote that is not escaped,
or with the clause if there is none. -/
def Quotes (quote : Char) (value : Literal) (slice rest : List Char) : Prop :=
  ∃ body, Text.Unbroken quote body ∧ value = .string (String.ofList (Text.unescape quote body)) ∧
    (slice = quote :: body ++ [quote] ∧ ¬ Text.EscapedAt quote (body ++ [quote]) body.length ∨
      slice = quote :: body ∧ rest = [])

/-- The characters `slice`, if `rest` follows them, are those of a token of this kind. -/
def Matches (slice rest : List Char) : Token.Kind → Prop
  | .punctuation mark => slice = [mark]
  | .operator text => slice = text.toList
  | .identifier text => slice = text.toList
  | .literal value none => Literal.ofWord? (String.ofList slice) = some value
  | .literal value (some quote) => l.isQuote quote = true ∧ Quotes quote value slice rest

/-- The tokens of a text, from `offset` on: slices of it between delimiters. -/
inductive Tiles : Nat → List Char → List Token → Prop
  | nil {offset : Nat} : Tiles offset [] []
  | delimiter {offset : Nat} {c : Char} {rest : List Char} {tokens : List Token} :
    l.isDelimiter c = true → Tiles (offset + c.utf8Size) rest tokens →
      Tiles offset (c :: rest) tokens
  | token {offset : Nat} {t : Token} {slice rest : List Char} {tokens : List Token} :
    slice ≠ [] → t.span = ⟨offset, offset + byteSize slice⟩ → l.Matches slice rest t.kind →
    (t.isQuoted = false → ∀ c ∈ slice, l.isDelimiter c = false) →
    Tiles (offset + byteSize slice) rest tokens → Tiles offset (slice ++ rest) (t :: tokens)

variable {l}

/-! ## Words and symbols -/

variable {offset start : Nat} {word text rest : List Char} {tokens : List Token}

theorem Tiles.wordAt (hd : ∀ c ∈ word, l.isDelimiter c = false)
    (h : l.Tiles (start + byteSize word) rest tokens) :
    l.Tiles start (word ++ rest) (wordAt start word ++ tokens) := by
  unfold Lexicon.wordAt
  split
  · rename_i hw
    obtain rfl : word = [] := by simpa using hw
    exact h
  · rename_i hw
    refine .token (by simpa using hw) ?_ ?_ (fun _ => hd) h
    · unfold Token.ofWord
      split <;> rfl
    · unfold Token.ofWord
      split
      · assumption
      · exact String.toList_ofList.symm

theorem Tiles.symbol {symbol : List Char} (hne : symbol ≠ [])
    (hd : ∀ c ∈ symbol, l.isDelimiter c = false)
    (h : l.Tiles (start + byteSize symbol) rest tokens) :
    l.Tiles start (symbol ++ rest)
      (.ofSymbol symbol ⟨start, start + byteSize symbol⟩ :: tokens) := by
  refine .token hne ?_ ?_ (fun _ => hd) h
  · unfold Token.ofSymbol
    split <;> rfl
  · unfold Token.ofSymbol
    split
    · rfl
    · rfl
    · rfl
    · exact String.toList_ofList.symm

/-- Cutting symbols out of the characters held gives the tokens of a first part of them, and the
others are still held. -/
theorem tiles_split (final : Bool) (held : Held) (hd : ∀ c ∈ held.text, l.isDelimiter c = false) :
    ∃ front, held.text.reverse = front ++ (l.split final held).2.text.reverse ∧
      (l.split final held).2.start = held.start + byteSize front ∧
      ∀ rest tokens, l.Tiles (held.start + byteSize front) rest tokens →
        l.Tiles held.start (front ++ rest) ((l.split final held).1 ++ tokens) := by
  induction hn : held.text.length using Nat.strongRecOn generalizing held with
  | ind n ih =>
    cases hc : l.cutLatest? final held.text with
    | none =>
      rw [split_of_none hc]
      exact ⟨[], rfl, rfl, fun _ _ h => h⟩
    | some cut =>
      obtain ⟨happ, hne⟩ := append_of_cutLatest? hc
      have hmem : ∀ c ∈ cut.before ++ cut.symbol ++ cut.after, l.isDelimiter c = false := by
        intro c hm
        rw [happ] at hm
        exact hd c (List.mem_reverse.1 hm)
      simp only [List.forall_mem_append] at hmem
      obtain ⟨⟨hbefore, hsymbol⟩, hafter⟩ := hmem
      let stop := held.start + byteSize cut.before + byteSize cut.symbol
      obtain ⟨front, htext, hstart, htiles⟩ :=
        ih _ (by simpa [hn] using length_after_lt hc) ⟨stop, cut.after.reverse⟩
          (fun c hm => hafter c (List.mem_reverse.1 hm)) rfl
      rw [split_of_some hc]
      refine ⟨cut.before ++ cut.symbol ++ front, ?_, ?_, fun rest tokens h => ?_⟩
      · rw [← happ, List.append_assoc _ front, ← htext, List.reverse_reverse]
      · rw [hstart]
        simp only [stop, byteSize_append]
        omega
      · rw [byteSize_append, byteSize_append, ← Nat.add_assoc, ← Nat.add_assoc] at h
        have hrest := (htiles rest tokens h).symbol hne hsymbol
        simpa using hrest.wordAt hbefore

/-! ## States of the lexer -/

/-- The characters that are pending in a state of the lexer after `offset` bytes: those from `start`
on, where the last token or delimiter ended. -/
def Outstanding (l : Lexicon) (offset start : Nat) (pending : List Char) : Lexer.Mode → Prop
  | .neutral => start = offset ∧ pending = []
  | .word held => start = held.start ∧ pending = held.text.reverse ∧
    held.start + byteSize held.text = offset ∧ ∀ c ∈ held.text, l.isDelimiter c = false
  | .quoted quote start' text escaped => start = start' ∧ ∃ body, pending = quote :: body ∧
    start + byteSize pending = offset ∧ l.isQuote quote = true ∧ Text.Unbroken quote body ∧
    text.reverse = Text.unescape quote body ∧
    (escaped = true ↔ quote ≠ '\\' ∧ Text.Protects body)

variable {pending : List Char} {mode : Lexer.Mode} {c : Char}

/-- A step of the lexer gives out the first tokens of what was pending and the character `c`; the
others are those of what is pending afterwards. -/
def Advances (l : Lexicon) (offset start : Nat) (pending : List Char) (c : Char)
    (out : List Token × Lexer.Mode) : Prop :=
  ∃ start' pending', l.Outstanding (offset + c.utf8Size) start' pending' out.2 ∧
    ∀ rest tokens, l.Tiles start' (pending' ++ rest) tokens →
      l.Tiles start (pending ++ c :: rest) (out.1 ++ tokens)

/-- A word that ends is tiled by its tokens. -/
theorem tiles_endWord {held : Held} (hd : ∀ c ∈ held.text, l.isDelimiter c = false)
    (h : l.Tiles (held.start + byteSize held.text) rest tokens) :
    l.Tiles held.start (held.text.reverse ++ rest) (l.endWord held ++ tokens) := by
  obtain ⟨front, htext, hstart, htiles⟩ := tiles_split true held hd
  have hsize := congrArg byteSize htext
  rw [byteSize_reverse, byteSize_append, byteSize_reverse] at hsize
  have hlast : l.Tiles (held.start + byteSize front)
      ((l.split true held).2.text.reverse ++ rest) ((l.split true held).2.tokens ++ tokens) := by
    rw [tokens_eq_wordAt, ← hstart]
    refine .wordAt (fun c hc => hd c ?_) ?_
    · rw [← List.mem_reverse, htext]
      exact List.mem_append_right _ hc
    · rwa [byteSize_reverse, hstart, Nat.add_assoc, ← hsize]
  rw [htext, List.append_assoc, endWord, List.append_assoc]
  exact htiles _ _ hlast

/-- A character is added to the ones held, and what can be cut is cut. -/
theorem advances_push {held : Held} (hd : ∀ d ∈ held.text, l.isDelimiter d = false)
    (hc : l.isDelimiter c = false) (hoff : held.start + byteSize held.text = offset) :
    l.Advances offset held.start held.text.reverse c
      ((l.split false (held.push c)).1, .word (l.split false (held.push c)).2) := by
  have hdel : ∀ d ∈ (held.push c).text, l.isDelimiter d = false :=
    List.forall_mem_cons.2 ⟨hc, hd⟩
  obtain ⟨front, htext, hstart, htiles⟩ := tiles_split false (held.push c) hdel
  have hsize := congrArg byteSize htext
  rw [byteSize_reverse, byteSize_append, byteSize_reverse] at hsize
  refine ⟨_, _, ⟨rfl, rfl, ?_, fun d hm => hdel d ?_⟩, fun rest tokens h => ?_⟩
  · rw [hstart, Nat.add_assoc, ← hsize]
    simp only [Held.push, byteSize_cons]
    omega
  · rw [← List.mem_reverse, htext]
    exact List.mem_append_right _ (List.mem_reverse.2 hm)
  · rw [hstart] at h
    have := htiles _ _ h
    rwa [← List.append_assoc, ← htext, Held.push, List.reverse_cons, List.append_assoc] at this

theorem advances_delimiter {held : Held} (hd : ∀ d ∈ held.text, l.isDelimiter d = false)
    (hc : l.isDelimiter c = true) (hoff : held.start + byteSize held.text = offset) :
    l.Advances offset held.start held.text.reverse c (l.endWord held, .neutral) := by
  refine ⟨_, _, ⟨rfl, rfl⟩, fun rest tokens h => tiles_endWord hd ?_⟩
  rw [hoff]
  exact .delimiter hc h

/-- Tokens are given out before a step. -/
theorem Advances.of_split {held : Held} {final : Bool} {out : List Token × Lexer.Mode}
    (hd : ∀ d ∈ held.text, l.isDelimiter d = false)
    (h : l.Advances offset (l.split final held).2.start (l.split final held).2.text.reverse c out) :
    l.Advances offset held.start held.text.reverse c ((l.split final held).1 ++ out.1, out.2) := by
  obtain ⟨front, htext, hstart, htiles⟩ := tiles_split final held hd
  obtain ⟨start', pending', ho, ht⟩ := h
  refine ⟨start', pending', ho, fun rest tokens h => ?_⟩
  rw [htext, List.append_assoc, List.append_assoc]
  refine htiles _ _ ?_
  rw [← hstart]
  exact ht rest tokens h

theorem outstanding_quote (hc : l.isQuote c = true) :
    l.Outstanding (offset + c.utf8Size) offset [c] (.quoted c offset [] false) := by
  refine ⟨rfl, [], rfl, by simp, hc, fun i hi => by simp at hi, rfl, ?_⟩
  simp [Text.not_protects_nil]

theorem advances_stepWord {held : Held} (hd : ∀ d ∈ held.text, l.isDelimiter d = false)
    (hoff : held.start + byteSize held.text = offset) :
    l.Advances offset held.start held.text.reverse c (l.stepWord offset held c) := by
  unfold stepWord
  split
  · rename_i hc
    exact advances_delimiter hd hc hoff
  · rename_i hc
    have hc : l.isDelimiter c = false := by simpa using hc
    split
    · rename_i hq
      obtain ⟨front, htext, hstart, -⟩ := tiles_split true held hd
      have hsize := congrArg byteSize htext
      rw [byteSize_reverse, byteSize_append, byteSize_reverse] at hsize
      have hoff' : (l.split true held).2.start + byteSize (l.split true held).2.text = offset := by
        omega
      have hd' : ∀ d ∈ (l.split true held).2.text, l.isDelimiter d = false := by
        intro d hm
        refine hd d (List.mem_reverse.1 ?_)
        rw [htext]
        exact List.mem_append_right _ (List.mem_reverse.2 hm)
      dsimp only
      split
      · rename_i he
        have he : (l.split true held).2.text = [] := by simpa using he
        have hq : l.Advances offset (l.split true held).2.start
            (l.split true held).2.text.reverse c ([], .quoted c offset [] false) := by
          rw [he, byteSize_nil, Nat.add_zero] at hoff'
          rw [he, hoff']
          exact ⟨_, _, outstanding_quote hq, fun rest tokens h => h⟩
        simpa using hq.of_split hd
      · exact (advances_push hd' hc hoff').of_split hd
    · have hp := advances_push hd hc hoff
      dsimp only
      split
      · rename_i he
        obtain ⟨start', pending', ⟨rfl, rfl, hend, -⟩, ht⟩ := hp
        have he : (l.split false (held.push c)).2.text = [] := by simpa using he
        rw [he, byteSize_nil, Nat.add_zero] at hend
        refine ⟨_, _, ⟨hend, ?_⟩, ht⟩
        rw [he, List.reverse_nil]
      · exact hp

/-! ## Quoted text -/

theorem advances_stepQuoted {quote : Char} {start' : Nat} {escaped : Bool}
    (h : l.Outstanding offset start pending (.quoted quote start' text escaped)) :
    l.Advances offset start pending c (stepQuoted offset quote start' text escaped c) := by
  obtain ⟨rfl, body, rfl, hoff, hq, hbody, htext, hesc⟩ := h
  have hsize : start + byteSize (quote :: (body ++ [c])) = offset + c.utf8Size := by
    simp only [byteSize_cons, byteSize_append, byteSize_nil] at hoff ⊢
    omega
  have hstay (text' : List Char) (escaped' : Bool)
      (hu : c = quote → quote ≠ '\\' ∧ Text.Protects body)
      (ht : text'.reverse = Text.unescape quote (body ++ [c]))
      (he : escaped' = true ↔ quote ≠ '\\' ∧ Text.Protects (body ++ [c])) :
      l.Advances offset start (quote :: body) c ([], .quoted quote start text' escaped') := by
    refine ⟨_, _, ⟨rfl, body ++ [c], rfl, hsize, hq, Text.unbroken_concat_iff.2 ⟨hbody, hu⟩, ht,
      he⟩, fun rest tokens h => ?_⟩
    simpa using h
  unfold stepQuoted
  split
  · rename_i hc
    split
    · rename_i he
      obtain ⟨hne, hp⟩ := hesc.1 he
      refine hstay _ _ (fun _ => ⟨hne, hp⟩) ?_ ?_
      · rw [Text.unescape_concat, if_pos ⟨hne, hc, hp⟩, ← htext, List.reverse_cons,
          List.drop_one, List.dropLast_reverse]
      · simp [Text.protects_concat_iff, hp]
    · rename_i he
      subst hc
      refine ⟨_, _, ⟨rfl, rfl⟩, fun rest tokens h => ?_⟩
      have hslice : c :: body ++ c :: rest = (c :: body ++ [c]) ++ rest := by simp
      rw [hslice]
      refine .token (by simp) ?_ ⟨hq, body, hbody, ?_, .inl ⟨rfl, fun hat => ?_⟩⟩
        (by simp [quotedToken, Token.isQuoted]) ?_
      · rw [← hsize]
        rfl
      · rw [htext]
      · obtain ⟨hne, -, hp⟩ := Text.escapedAt_concat_length.1 hat
        exact he (hesc.2 ⟨hne, hp⟩)
      · rw [← hsize] at h
        exact h
  · rename_i hc
    refine hstay _ _ (fun h => absurd h hc) ?_ ?_
    · rw [Text.unescape_concat, if_neg fun h => hc h.2.1, List.reverse_cons, htext]
    · rw [Bool.and_eq_true_iff, Bool.not_eq_true', ← Bool.not_eq_true, hesc, beq_iff_eq,
        Text.protects_concat_iff]
      constructor
      · rintro ⟨rfl, h⟩
        have hne : quote ≠ '\\' := fun h => hc h.symm
        exact ⟨hne, rfl, fun hp => h ⟨hne, hp⟩⟩
      · rintro ⟨hne, rfl, hp⟩
        exact ⟨rfl, fun h => hp h.2⟩

/-! ## Runs of the lexer -/

theorem advances_stepMode (h : l.Outstanding offset start pending mode) (c : Char) :
    l.Advances offset start pending c (l.stepMode offset mode c) := by
  cases mode with
  | neutral =>
    obtain ⟨rfl, rfl⟩ := h
    rw [stepMode]
    split
    · rename_i hq
      exact ⟨_, _, outstanding_quote hq, fun rest tokens h => h⟩
    · split
      · rename_i hd
        exact ⟨_, _, ⟨rfl, rfl⟩, fun rest tokens h => .delimiter hd h⟩
      · have hd : ∀ d ∈ (⟨start, []⟩ : Held).text, l.isDelimiter d = false := by simp
        exact advances_stepWord hd rfl
  | word held =>
    obtain ⟨rfl, rfl, hoff, hd⟩ := h
    exact advances_stepWord hd hoff
  | quoted quote start' text escaped => exact advances_stepQuoted h

theorem tiles_finish (h : l.Outstanding offset start pending mode) :
    l.Tiles start pending (l.finish ⟨mode, offset⟩) := by
  cases mode with
  | neutral =>
    obtain ⟨rfl, rfl⟩ := h
    exact .nil
  | word held =>
    obtain ⟨rfl, rfl, -, hd⟩ := h
    simpa [finish] using tiles_endWord hd .nil
  | quoted quote start' text escaped =>
    obtain ⟨rfl, body, rfl, hoff, hq, hbody, htext, -⟩ := h
    have ht : l.Tiles start (quote :: body ++ []) _ :=
      .token (t := quotedToken quote text ⟨start, offset⟩) (by simp) (by rw [← hoff]; rfl)
        ⟨hq, body, hbody, by rw [htext], .inr ⟨rfl, rfl⟩⟩
        (by simp [quotedToken, Token.isQuoted]) .nil
    simpa [finish] using ht

/-- The rest of a run tiles what is pending and the rest of the input. -/
theorem tiles_run (h : l.Outstanding offset start pending mode) (input : List Char) :
    l.Tiles start (pending ++ input) (l.run ⟨mode, offset⟩ input) := by
  induction input generalizing offset start pending mode with
  | nil =>
    rw [run_nil, List.append_nil]
    exact tiles_finish h
  | cons c input ih =>
    obtain ⟨start', pending', ho, ht⟩ := advances_stepMode h c
    rw [run_cons]
    exact ht _ _ (ih ho)

/-! ## Places of the tokens -/

/-- A token is a slice of the text, which stands at `offset`. -/
def IsTile (l : Lexicon) (offset : Nat) (text : List Char) (t : Token) : Prop :=
  ∃ before slice after, text = before ++ slice ++ after ∧ slice ≠ [] ∧
    t.span = ⟨offset + byteSize before, offset + byteSize before + byteSize slice⟩ ∧
    l.Matches slice after t.kind ∧ (t.isQuoted = false → ∀ c ∈ slice, l.isDelimiter c = false)

/-- The tokens are slices of the text, which stands at `offset`, one after the other, and only
delimiters are in none of them. -/
structure Tiling (l : Lexicon) (offset : Nat) (text : List Char) (tokens : List Token) : Prop where
  /-- Every token is a slice. -/
  slices : ∀ t ∈ tokens, l.IsTile offset text t
  /-- A token ends before the next ones start. -/
  ordered : tokens.Pairwise fun t u => t.span.stop ≤ u.span.start
  /-- A character in no token is a delimiter. -/
  gaps : ∀ before c after, text = before ++ c :: after →
    (∀ t ∈ tokens, ¬ (t.span.start ≤ offset + byteSize before ∧
      offset + byteSize before < t.span.stop)) → l.isDelimiter c = true

theorem IsTile.prepend (front : List Char) {t : Token}
    (h : l.IsTile (offset + byteSize front) rest t) : l.IsTile offset (front ++ rest) t := by
  obtain ⟨before, slice, after, rfl, hne, hspan, hkind, hd⟩ := h
  refine ⟨front ++ before, slice, after, by simp, hne, ?_, hkind, hd⟩
  rw [hspan, byteSize_append, Nat.add_assoc offset]

theorem IsTile.le_start {t : Token} (h : l.IsTile offset text t) : offset ≤ t.span.start := by
  obtain ⟨before, slice, after, -, -, hspan, -⟩ := h
  rw [hspan]
  exact Nat.le_add_right _ _

/-- The tokens start one after the other. -/
theorem Tiling.pairwise_start (h : l.Tiling offset text tokens) :
    tokens.Pairwise fun t u => t.span.start ≤ u.span.start := by
  refine h.ordered.imp_of_mem fun {t u} ht _ hle => ?_
  obtain ⟨before, slice, after, -, -, hspan, -⟩ := h.slices t ht
  rw [hspan] at hle ⊢
  exact Nat.le_trans (Nat.le_add_right _ _) hle

/-- A delimiter in front is in no token. -/
theorem Tiling.delimiter (hc : l.isDelimiter c = true)
    (h : l.Tiling (offset + c.utf8Size) rest tokens) : l.Tiling offset (c :: rest) tokens where
  slices t ht := IsTile.prepend [c] (by simpa using h.slices t ht)
  ordered := h.ordered
  gaps := by
    intro before d after heq hout
    cases before with
    | nil =>
      rw [List.nil_append, List.cons.injEq] at heq
      exact heq.1 ▸ hc
    | cons b before =>
      rw [List.cons_append, List.cons.injEq] at heq
      obtain ⟨rfl, hrest⟩ := heq
      refine h.gaps before d after hrest fun t ht => ?_
      simpa only [byteSize_cons, Nat.add_assoc] using hout t ht

theorem Tiling.token {t : Token} {slice : List Char} (hne : slice ≠ [])
    (hspan : t.span = ⟨offset, offset + byteSize slice⟩) (hkind : l.Matches slice rest t.kind)
    (hd : t.isQuoted = false → ∀ c ∈ slice, l.isDelimiter c = false)
    (h : l.Tiling (offset + byteSize slice) rest tokens) :
    l.Tiling offset (slice ++ rest) (t :: tokens) where
  slices := by
    refine List.forall_mem_cons.2 ⟨?_, fun u hu => (h.slices u hu).prepend slice⟩
    exact ⟨[], slice, rest, rfl, hne, by simpa using hspan, hkind, hd⟩
  ordered := by
    refine List.pairwise_cons.2 ⟨fun u hu => ?_, h.ordered⟩
    rw [hspan]
    exact (h.slices u hu).le_start
  gaps := by
    intro before c after heq hout
    -- after the slice: the character is one of the rest
    have hlater (more : List Char) (hb : before = slice ++ more)
        (hrest : rest = more ++ c :: after) : l.isDelimiter c = true := by
      refine h.gaps more c after hrest fun u hu => ?_
      have := hout u (List.mem_cons_of_mem _ hu)
      rwa [hb, byteSize_append, ← Nat.add_assoc] at this
    rcases List.append_eq_append_iff.1 heq with ⟨more, hb, hrest⟩ | ⟨more, hs, hrest⟩
    · exact hlater more hb hrest
    · cases more with
      | nil =>
        refine hlater [] ?_ hrest.symm
        rw [hs, List.append_nil, List.append_nil]
      | cons d more =>
        -- in the slice: the character is part of the token
        have hlt := c.utf8Size_pos
        rw [List.cons_append, List.cons.injEq] at hrest
        obtain ⟨rfl, -⟩ := hrest
        have := hout t List.mem_cons_self
        simp only [hspan, hs, byteSize_append, byteSize_cons] at this
        omega

theorem Tiles.tiling (h : l.Tiles offset text tokens) : l.Tiling offset text tokens := by
  induction h with
  | nil => exact ⟨by simp, .nil, by simp⟩
  | delimiter hc _ ih => exact ih.delimiter hc
  | token hne hspan hkind hd _ ih => exact ih.token hne hspan hkind hd

/-- The tokens of a clause are slices of it, each of which says what the token says, in the order in
which they stand in the clause; all other characters are delimiters. -/
theorem tiling_tokenize (l : Lexicon) (clause : String) :
    l.Tiling 0 clause.toList (l.tokenize clause) := by
  have hstart : l.Outstanding 0 0 [] .neutral := ⟨rfl, rfl⟩
  exact (tiles_run hstart clause.toList).tiling

end Lexicon

end WhereClause
