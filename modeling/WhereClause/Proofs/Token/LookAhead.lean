import WhereClause.Proofs.Token.Longest
import WhereClause.Proofs.Token.Quotation

/-!
# Reading with look-ahead

A second way to cut a clause into tokens, which sees all that follows: at each place it takes the
longest symbol that matches there. A lexer has no look-ahead. It holds back text that may still grow
into a symbol and searches only the latest characters again, and yet it gives the same tokens, if
all characters of the clause are single bytes and no symbol contains a quote or a delimiter.

The proof keeps, for each state of the lexer, what reading with look-ahead makes of the text that is
held together with the text to come. A step of the lexer gives out the first tokens of this.
-/

namespace WhereClause.Lexicon

variable (l : Lexicon)

/-! ## Tokens with look-ahead -/

/-- The tokens of the input after the characters `word`, which start at `start` and are of no token
yet. -/
def lookAhead (start : Nat) (word : List Char) (input : List Char) : List Token :=
  let offset := start + byteSize word
  match input with
  | [] => wordAt start word
  | c :: rest =>
    if l.isDelimiter c then
      wordAt start word ++ lookAhead (offset + c.utf8Size) [] rest
    else if l.isQuote c then
      if word.isEmpty then
        let q := Quotation.read c (offset + c.utf8Size) rest
        q.token c offset :: lookAhead q.stop [] q.rest
      else
        lookAhead start (word ++ [c]) rest
    else
      match _h : l.longest? (c :: rest) with
      | some symbol =>
        let stop := offset + byteSize symbol
        wordAt start word ++ .ofSymbol symbol ⟨offset, stop⟩ ::
          lookAhead stop [] ((c :: rest).drop symbol.length)
      | none => lookAhead start (word ++ [c]) rest
termination_by input.length
decreasing_by
  · simp
  · have := (Quotation.rest_read_suffix c (offset + c.utf8Size) rest).length_le
    simp [offset] at this ⊢
    omega
  · simp
  · have hs : symbol ≠ [] := fun he => l.symbols_ne_nil (he ▸ (longest?_eq_some_iff.1 _h).1)
    have := List.length_pos_iff.2 hs
    simp only [List.length_drop, List.length_cons]
    omega
  · simp

/-- Quotes, delimiters and the characters of symbols are apart. -/
structure Apart : Prop where
  /-- No quote is a delimiter. -/
  quotes : ∀ c ∈ l.quotes, c ∉ l.delimiters
  /-- No symbol contains a quote or a delimiter. -/
  symbols : ∀ symbol ∈ l.symbols, ∀ c ∈ symbol, c ∉ l.quotes ∧ c ∉ l.delimiters

variable {l} {text rest word : List Char} {start : Nat}

theorem Apart.quote (hl : l.Apart) {c : Char} (hc : l.isQuote c = true) :
    l.isDelimiter c = false := by
  simpa [isDelimiter] using hl.quotes c (by simpa [isQuote] using hc)

theorem Apart.symbol (hl : l.Apart) {symbol : List Char} (hs : symbol ∈ l.symbols) {c : Char}
    (hc : c ∈ symbol) : l.isQuote c = false ∧ l.isDelimiter c = false := by
  simpa [isQuote, isDelimiter] using hl.symbols symbol hs c hc

theorem Apart.bounded (hl : l.Apart) {c : Char} (hc : l.isDelimiter c = true ∨ l.isQuote c = true)
    (rest : List Char) : l.Bounded (c :: rest) := by
  intro d hd symbol hs hm
  cases hd
  obtain ⟨hq, hd⟩ := hl.symbol hs hm
  simp_all

/-! ## Steps of look-ahead -/

/-- Characters at which no symbol starts become part of the word. -/
theorem lookAhead_append (hd : ∀ c ∈ text, l.isDelimiter c = false)
    (hq : word = [] → ∀ c ∈ text.head?, l.isQuote c = false) (hf : l.Free text rest) :
    l.lookAhead start word (text ++ rest) = l.lookAhead start (word ++ text) rest := by
  induction text generalizing word with
  | nil => simp
  | cons c text ih =>
    obtain ⟨hc, hd⟩ := List.forall_mem_cons.1 hd
    obtain ⟨hn, hf⟩ := hf
    have hw : word ++ [c] = [] → ∀ d ∈ text.head?, l.isQuote d = false := by simp
    rw [List.append_cons, ← ih hd hw hf, List.cons_append, lookAhead]
    simp only [hc, Bool.false_eq_true, if_false]
    by_cases hqc : l.isQuote c = true
    · have hne : word.isEmpty = false := by
        by_contra he
        have := hq (by simpa using he) c rfl
        simp_all
      simp only [hqc, if_true, hne, Bool.false_eq_true, if_false]
    · rw [if_neg hqc]
      split
      · rename_i hs
        rw [List.cons_append] at hn
        rw [hn] at hs
        cases hs
      · rfl

theorem lookAhead_symbol (hl : l.Apart) {symbol : List Char}
    (h : l.longest? (symbol ++ rest) = some symbol) :
    l.lookAhead start word (symbol ++ rest) =
      wordAt start word ++ .ofSymbol symbol
        ⟨start + byteSize word, start + byteSize word + byteSize symbol⟩ ::
          l.lookAhead (start + byteSize word + byteSize symbol) [] rest := by
  obtain ⟨hs, -, -⟩ := longest?_eq_some_iff.1 h
  obtain ⟨c, more, rfl⟩ : ∃ c more, symbol = c :: more :=
    List.exists_cons_of_ne_nil fun he => l.symbols_ne_nil (he ▸ hs)
  obtain ⟨hq, hd⟩ := hl.symbol hs (List.mem_cons_self ..)
  rw [List.cons_append] at h ⊢
  rw [lookAhead]
  simp only [hd, hq, Bool.false_eq_true, if_false]
  split
  · rename_i symbol hs'
    rw [h] at hs'
    cases hs'
    simp
  · rename_i hn
    rw [h] at hn
    cases hn

theorem lookAhead_delimiter {c : Char} (hc : l.isDelimiter c = true) :
    l.lookAhead start word (c :: rest) =
      wordAt start word ++ l.lookAhead (start + byteSize word + c.utf8Size) [] rest := by
  rw [lookAhead]
  simp only [hc, if_true]

theorem lookAhead_quote (hl : l.Apart) {c : Char} (hc : l.isQuote c = true) :
    l.lookAhead start [] (c :: rest) =
      (Quotation.read c (start + c.utf8Size) rest).token c start ::
        l.lookAhead (Quotation.read c (start + c.utf8Size) rest).stop []
          (Quotation.read c (start + c.utf8Size) rest).rest := by
  rw [lookAhead]
  simp only [hl.quote hc, hc, Bool.false_eq_true, if_false, if_true, List.isEmpty_nil,
    byteSize_nil, Nat.add_zero]

theorem lookAhead_nil : l.lookAhead start word [] = wordAt start word := by
  rw [lookAhead]

/-! ## Cutting what is held -/

/-- No symbol starts in the part `before` of the characters held, whatever follows, and a search can
reach all of the part `late` after it. -/
structure Window (l : Lexicon) (held : Held) (before late : List Char) : Prop where
  text : held.text.reverse = before ++ late
  single : ∀ c ∈ held.text, c.utf8Size = 1 ∧ l.isDelimiter c = false
  head : ∀ c ∈ held.text.reverse.head?, l.isQuote c = false
  unquoted : ∀ c ∈ late, l.isQuote c = false
  free : ∀ rest, l.Free before (late ++ rest)
  size : late.length ≤ l.reach

theorem Window.cut {held : Held} {before late : List Char} {final : Bool} {inner : Cut}
    (hw : Window l held before late) (h : l.findSymbol? final late = some inner) (at' : Nat) :
    Window l ⟨at', inner.after.reverse⟩ [] inner.after := by
  obtain ⟨ha, -⟩ := append_of_findSymbol? h
  have hmem : ∀ c ∈ inner.after, c ∈ late := fun c hc => ha ▸ List.mem_append_right _ hc
  have hheld : ∀ c ∈ late, c ∈ held.text := fun c hc =>
    List.mem_reverse.1 (hw.text ▸ List.mem_append_right _ hc)
  have hlen := congrArg List.length ha
  rw [List.length_append] at hlen
  refine ⟨by simp, fun c hc => ?_, fun c hc => ?_, fun c hc => hw.unquoted c (hmem c hc),
    fun _ => trivial, by have := hw.size; omega⟩
  · exact hw.single c (hheld c (hmem c (List.mem_reverse.1 hc)))
  · rw [List.reverse_reverse] at hc
    exact hw.unquoted c (hmem c (List.mem_of_mem_head? hc))

/-- Cutting gives out the first tokens of reading with look-ahead. Nothing is left to be cut. -/
theorem lookAhead_split (hl : l.Apart) (final : Bool) {held : Held} {before late : List Char}
    (hw : Window l held before late) :
    (∀ rest, (final → l.Bounded rest) →
      l.lookAhead held.start [] (held.text.reverse ++ rest) =
        (l.split final held).1 ++
          l.lookAhead (l.split final held).2.start []
            ((l.split final held).2.text.reverse ++ rest)) ∧
    (l.split final held).2.start + byteSize (l.split final held).2.text =
      held.start + byteSize held.text ∧
    ∃ before late, Window l (l.split final held).2 before late ∧
      l.findSymbol? final late = none := by
  induction hn : held.text.length using Nat.strong_induction_on generalizing held before late with
  | _ n ih =>
    have hcut := cutLatest?_eq final (fun c hc => (hw.single c hc).1) hw.text hw.free hw.size
    cases hf : l.findSymbol? final late with
    | none =>
      rw [hf] at hcut
      rw [split_of_none hcut]
      exact ⟨fun _ _ => by simp, rfl, before, late, hw, hf⟩
    | some inner =>
      rw [hf, Option.map_some] at hcut
      obtain ⟨ha, -⟩ := append_of_findSymbol? hf
      have htext : held.text.reverse =
          (before ++ inner.before) ++ (inner.symbol ++ inner.after) := by
        rw [hw.text, ← ha]
        simp
      have hlt := length_after_lt hcut
      have hsize : byteSize held.text =
          byteSize (before ++ inner.before) + byteSize inner.symbol + byteSize inner.after := by
        rw [← byteSize_reverse held.text, htext]
        simp [Nat.add_assoc]
      obtain ⟨hread, hstop, hwin⟩ := ih _ (by simpa [hn] using hlt)
        (hw.cut hf (held.start + byteSize (before ++ inner.before) + byteSize inner.symbol)) rfl
      rw [split_of_some hcut]
      refine ⟨fun rest hb => ?_, ?_, hwin⟩
      · obtain ⟨hfree, hlong⟩ := longest?_of_findSymbol? hb hf
        have hfree' : l.Free (before ++ inner.before) (inner.symbol ++ inner.after ++ rest) := by
          refine free_append ?_ hfree
          have := hw.free rest
          rwa [← ha, List.append_assoc, List.append_assoc, ← List.append_assoc inner.symbol] at this
        have hd : ∀ c ∈ before ++ inner.before, l.isDelimiter c = false := by
          intro c hc
          refine (hw.single c (List.mem_reverse.1 ?_)).2
          rw [htext]
          exact List.mem_append_left _ hc
        have hq : ([] : List Char) = [] →
            ∀ c ∈ (before ++ inner.before).head?, l.isQuote c = false := by
          intro _ c hc
          refine hw.head c ?_
          rw [htext, List.head?_append]
          simp_all
        rw [htext, List.append_assoc, lookAhead_append hd hq (by simpa using hfree'),
          List.nil_append, List.append_assoc inner.symbol,
          lookAhead_symbol hl (by simpa using hlong)]
        have hr := hread rest hb
        rw [List.reverse_reverse] at hr
        rw [hr]
        simp
      · refine hstop.trans ?_
        simp only [byteSize_reverse, hsize]
        omega

/-! ## States of the lexer -/

/-- The characters that a lexer holds: all that could be cut has been, and the text from which a
symbol may still grow is at the end. -/
def Pending (l : Lexicon) (offset : Nat) (held : Held) : Prop :=
  held.start + byteSize held.text = offset ∧
    ∃ before growing, Window l held before growing ∧ (growing ≠ [] → l.mayGrow growing = true)

/-- The state of a lexer after `offset` bytes: no quoted text has been begun. -/
def Steady (l : Lexicon) (offset : Nat) : Lexer.Mode → Prop
  | .neutral => True
  | .word held => Pending l offset held
  | .quoted _ _ text escaped => text = [] ∧ escaped = false

/-- What reading with look-ahead makes of the state of a lexer and the input to come. -/
def residual (l : Lexicon) (offset : Nat) : Lexer.Mode → List Char → List Token
  | .neutral, input => l.lookAhead offset [] input
  | .word held, input => l.lookAhead held.start [] (held.text.reverse ++ input)
  | .quoted quote start _ _, input =>
    (Quotation.read quote offset input).token quote start ::
      l.lookAhead (Quotation.read quote offset input).stop []
        (Quotation.read quote offset input).rest

/-- An end of the word: nothing that is left is part of a symbol. -/
theorem lookAhead_endWord (hl : l.Apart) {offset : Nat} {held : Held} (hp : Pending l offset held)
    (hb : l.Bounded rest) :
    l.lookAhead held.start [] (held.text.reverse ++ rest) =
      (l.split true held).1 ++ l.lookAhead (l.split true held).2.start
        (l.split true held).2.text.reverse rest ∧
      (l.split true held).2.start + byteSize (l.split true held).2.text = offset := by
  obtain ⟨hoff, before, growing, hw, -⟩ := hp
  obtain ⟨hread, hstop, before', late, hw', hnone⟩ := lookAhead_split hl true hw
  refine ⟨?_, hstop.trans hoff⟩
  have hfree : l.Free (l.split true held).2.text.reverse rest := by
    rw [hw'.text]
    exact free_append (hw'.free rest) (free_of_findSymbol? hb hnone)
  rw [hread rest fun _ => hb, lookAhead_append (fun c hc => ?_) (fun _ => hw'.head) hfree,
    List.nil_append]
  exact (hw'.single c (List.mem_reverse.1 hc)).2

theorem longest?_eq_none_of_not_mem {c : Char} (h : ∀ symbol ∈ l.symbols, c ∉ symbol) :
    l.longest? (c :: rest) = none := by
  rw [longest?_eq_none_iff]
  rintro symbol hs ⟨more, hp⟩
  cases symbol with
  | nil => exact l.symbols_ne_nil hs
  | cons d symbol =>
    cases hp
    exact h _ hs (List.mem_cons_self ..)

theorem Pending.window {offset : Nat} {held : Held} {c : Char} (hp : Pending l offset held)
    (hc : c.utf8Size = 1) (hd : l.isDelimiter c = false) (hq : l.isQuote c = false) :
    ∃ before late, Window l (held.push c) before late := by
  obtain ⟨hoff, before, growing, hw, hg⟩ := hp
  have hsingle : ∀ d ∈ (held.push c).text, d.utf8Size = 1 ∧ l.isDelimiter d = false :=
    List.forall_mem_cons.2 ⟨⟨hc, hd⟩, hw.single⟩
  have htext : (held.push c).text.reverse = before ++ growing ++ [c] := by
    rw [← hw.text]
    simp [Held.push]
  have hhead : ∀ d ∈ (held.push c).text.reverse.head?, l.isQuote d = false := by
    intro d hm
    rw [htext, ← hw.text, List.head?_append] at hm
    cases hh : held.text.reverse.head? with
    | none =>
      rw [hh] at hm
      cases hm
      exact hq
    | some e =>
      rw [hh] at hm
      cases hm
      exact hw.head _ hh
  by_cases hr : l.reach = 0
  · -- without symbols there is nothing to search
    refine ⟨before ++ growing ++ [c], [], by simpa using htext, hsingle, hhead, by simp, ?_,
      by simp⟩
    intro rest
    generalize before ++ growing ++ [c] = text
    induction text with
    | nil => trivial
    | cons d text ih => exact ⟨longest?_eq_none_of_reach hr, ih⟩
  · refine ⟨before, growing ++ [c], by simpa using htext, hsingle, hhead, ?_, ?_, ?_⟩
    · exact List.forall_mem_append.2 ⟨hw.unquoted, List.forall_mem_singleton.2 hq⟩
    · intro rest
      have := hw.free (c :: rest)
      simpa using this
    · rw [List.length_append, List.length_singleton]
      by_cases hn : growing = []
      · rw [hn, List.length_nil]
        omega
      · exact length_lt_reach (hg hn)

theorem pending_split (hl : l.Apart) {offset : Nat} {held : Held} {before late : List Char}
    (hw : Window l held before late) (hoff : held.start + byteSize held.text = offset) :
    Pending l offset (l.split false held).2 := by
  obtain ⟨-, hstop, before', late', hw', hnone⟩ := lookAhead_split hl false hw
  obtain ⟨mid, growing, rfl, hf, hg⟩ := passed_of_findSymbol? hnone
  refine ⟨hstop.trans hoff, before' ++ mid, growing, ?_, hg⟩
  refine ⟨by rw [hw'.text, List.append_assoc], hw'.single, hw'.head,
    fun c hc => hw'.unquoted c (List.mem_append_right _ hc), fun rest => ?_, ?_⟩
  · refine free_append ?_ (hf rest)
    have := hw'.free rest
    rwa [List.append_assoc] at this
  · have := hw'.size
    rw [List.length_append] at this
    omega

/-! ## Steps of the lexer -/

/-- A step of the lexer at the character `c` gives out the first of the tokens and leaves a state of
which look-ahead makes the others. -/
def Follows (l : Lexicon) (offset : Nat) (c : Char) (rest : List Char) (tokens : List Token)
    (out : List Token × Lexer.Mode) : Prop :=
  tokens = out.1 ++ l.residual (offset + c.utf8Size) out.2 rest ∧
    Steady l (offset + c.utf8Size) out.2

variable {offset : Nat} {held : Held} {c : Char}

theorem follows_delimiter (hl : l.Apart) (hp : Pending l offset held)
    (hd : l.isDelimiter c = true) :
    Follows l offset c rest (l.residual offset (.word held) (c :: rest))
      (l.stepWord offset held c) := by
  obtain ⟨hread, hstop⟩ := lookAhead_endWord hl hp (hl.bounded (.inl hd) rest)
  rw [stepWord, if_pos hd]
  refine ⟨hread.trans ?_, trivial⟩
  rw [lookAhead_delimiter hd, byteSize_reverse, hstop, ← List.append_assoc, ← tokens_eq_wordAt]
  rfl

theorem follows_split (hl : l.Apart) {before late : List Char} {tokens : List Token}
    (more : List Token) (hw : Window l (held.push c) before late)
    (hoff : held.start + byteSize held.text = offset)
    (ht : tokens = more ++ l.lookAhead held.start [] (held.text.reverse ++ c :: rest)) :
    Follows l offset c rest tokens
      (more ++ (l.split false (held.push c)).1, .word (l.split false (held.push c)).2) := by
  obtain ⟨hread, -, -⟩ := lookAhead_split hl false hw
  have hpush : (held.push c).text.reverse ++ rest = held.text.reverse ++ c :: rest := by
    simp [Held.push]
  have hsize : (held.push c).start + byteSize (held.push c).text = offset + c.utf8Size := by
    simp only [Held.push, byteSize_cons]
    omega
  refine ⟨?_, pending_split hl hw hsize⟩
  rw [ht, List.append_assoc, ← hpush]
  exact congrArg _ (hread rest (by simp))

theorem follows_quote (hl : l.Apart) (hp : Pending l offset held) (hc : c.utf8Size = 1)
    (hq : l.isQuote c = true) :
    Follows l offset c rest (l.residual offset (.word held) (c :: rest))
      (l.stepWord offset held c) := by
  have hd := hl.quote hq
  have hb := hl.bounded (.inr hq)
  obtain ⟨hoff, before, growing, hw, -⟩ := hp
  obtain ⟨hread, hstop, before', late, hw', hnone⟩ := lookAhead_split hl true hw
  have hread := hread (c :: rest) fun _ => hb rest
  have hstop := hstop.trans hoff
  rw [stepWord, if_neg (by simp [hd]), if_pos hq]
  by_cases he : (l.split true held).2.text = []
  · rw [he, byteSize_nil, Nat.add_zero] at hstop
    simp only [he, List.isEmpty_nil, if_true]
    refine ⟨hread.trans ?_, by simp [Steady]⟩
    rw [he, List.reverse_nil, List.nil_append, lookAhead_quote hl hq, hstop]
    rfl
  · have hne : (l.split true held).2.text.isEmpty = false := by simpa using he
    simp only [hne, Bool.false_eq_true, if_false]
    -- no symbol contains the quote, so none starts in the word that it joins
    have hwin : Window l ((l.split true held).2.push c)
        ((l.split true held).2.text.reverse ++ [c]) [] := by
      refine ⟨by simp [Held.push], List.forall_mem_cons.2 ⟨⟨hc, hd⟩, hw'.single⟩, ?_, by simp,
        fun rest => ?_, by simp⟩
      · intro d hm
        rw [Held.push, List.reverse_cons, List.head?_append_of_ne_nil _ (by simpa using he)] at hm
        exact hw'.head d hm
      · refine free_append ?_ ⟨longest?_eq_none_of_not_mem (hb rest c rfl), trivial⟩
        rw [hw'.text]
        exact free_append (hw'.free _) (free_of_findSymbol? (hb rest) hnone)
    exact follows_split hl _ hwin hstop hread

theorem follows_char (hl : l.Apart) (hp : Pending l offset held) (hc : c.utf8Size = 1)
    (hd : l.isDelimiter c = false) (hq : l.isQuote c = false) :
    Follows l offset c rest (l.residual offset (.word held) (c :: rest))
      (l.stepWord offset held c) := by
  obtain ⟨before, late, hw⟩ := hp.window hc hd hq
  have hf : Follows l offset c rest (l.residual offset (.word held) (c :: rest)) _ :=
    follows_split hl [] hw hp.1 rfl
  rw [List.nil_append] at hf
  rw [stepWord, if_neg (by simp [hd]), if_neg (by simp [hq])]
  by_cases he : (l.split false (held.push c)).2.text = []
  · obtain ⟨hread, hstop, -⟩ := hf
    rw [he, byteSize_nil, Nat.add_zero] at hstop
    simp only [he, List.isEmpty_nil, if_true]
    refine ⟨hread.trans ?_, trivial⟩
    simp only [residual, he, hstop, List.reverse_nil, List.nil_append]
  · have hne : (l.split false (held.push c)).2.text.isEmpty = false := by simpa using he
    simp only [hne, Bool.false_eq_true, if_false]
    exact hf

theorem follows_stepWord (hl : l.Apart) (hp : Pending l offset held) (hc : c.utf8Size = 1) :
    Follows l offset c rest (l.residual offset (.word held) (c :: rest))
      (l.stepWord offset held c) := by
  by_cases hd : l.isDelimiter c = true
  · exact follows_delimiter hl hp hd
  · by_cases hq : l.isQuote c = true
    · exact follows_quote hl hp hc hq
    · exact follows_char hl hp hc (by simpa using hd) (by simpa using hq)

theorem follows_neutral (hl : l.Apart) (hc : c.utf8Size = 1) (rest : List Char) :
    Follows l offset c rest (l.lookAhead offset [] (c :: rest)) (l.stepMode offset .neutral c) := by
  rw [stepMode]
  by_cases hq : l.isQuote c = true
  · rw [if_pos hq]
    exact ⟨lookAhead_quote hl hq, rfl, rfl⟩
  · rw [if_neg hq]
    by_cases hd : l.isDelimiter c = true
    · rw [if_pos hd]
      refine ⟨(lookAhead_delimiter hd).trans ?_, trivial⟩
      simp [residual, wordAt]
    · rw [if_neg hd]
      have hp : Pending l offset ⟨offset, []⟩ :=
        ⟨rfl, [], [], ⟨rfl, by simp, by simp, by simp, fun _ => trivial, by simp⟩, by simp⟩
      exact follows_stepWord hl hp hc

/-! ## All input -/

theorem residual_nil (hl : l.Apart) {mode : Lexer.Mode} (hs : Steady l offset mode) :
    l.residual offset mode [] = l.finish ⟨mode, offset⟩ := by
  cases mode with
  | neutral => exact lookAhead_nil
  | word held =>
    obtain ⟨hread, -⟩ := lookAhead_endWord hl hs bounded_nil
    refine hread.trans ?_
    rw [lookAhead_nil, ← tokens_eq_wordAt]
    rfl
  | quoted quote start text escaped =>
    obtain ⟨rfl, rfl⟩ := hs
    rw [residual, Quotation.read, lookAhead_nil]
    rfl

/-- Whether quoted text is being read, as a number: it is read at once, without a shorter input. -/
def lead : Lexer.Mode → Nat
  | .quoted _ _ _ _ => 1
  | _ => 0

theorem lead_le_one (mode : Lexer.Mode) : lead mode ≤ 1 := by
  cases mode <;> simp [lead]

theorem run_eq_residual (hl : l.Apart) {input : List Char} (hi : ∀ c ∈ input, c.utf8Size = 1)
    {mode : Lexer.Mode} (hs : Steady l offset mode) :
    l.run ⟨mode, offset⟩ input = l.residual offset mode input := by
  induction hn : 2 * input.length + lead mode
    using Nat.strong_induction_on generalizing input mode offset with
  | _ n ih =>
    by_cases hq : ∃ quote start, mode = .quoted quote start [] false
    · obtain ⟨quote, start, rfl⟩ := hq
      have hsuf := Quotation.rest_read_suffix quote offset input
      have hlen := hsuf.length_le
      have hrest : l.run ⟨.neutral, (Quotation.read quote offset input).stop⟩
          (Quotation.read quote offset input).rest = _ :=
        ih (2 * (Quotation.read quote offset input).rest.length) (by simp [lead] at hn; omega)
          (fun c hc => hi c (hsuf.mem hc)) trivial rfl
      rw [run_quoted (by simp), residual]
      simp only [quotation, Bool.false_eq_true, if_false, Quotation.prepend, List.reverse_nil,
        List.nil_append]
      rw [scan, hrest]
      rfl
    · cases input with
      | nil => rw [run_nil, residual_nil hl hs]
      | cons c input =>
        obtain ⟨hc, hi⟩ := List.forall_mem_cons.1 hi
        have hf : Follows l offset c input (l.residual offset mode (c :: input))
            (l.stepMode offset mode c) := by
          cases mode with
          | neutral => exact follows_neutral hl hc input
          | word held => exact follows_stepWord hl hs hc
          | quoted quote start text escaped =>
            obtain ⟨rfl, rfl⟩ := hs
            exact absurd ⟨quote, start, rfl⟩ hq
        have hle := lead_le_one (l.stepMode offset mode c).2
        rw [List.length_cons] at hn
        have hrest : l.run ⟨(l.stepMode offset mode c).2, offset + c.utf8Size⟩ input = _ :=
          ih (2 * input.length + lead (l.stepMode offset mode c).2) (by omega) hi hf.2 rfl
        rw [run_cons, hf.1, ← hrest]
        rfl

/-- On single-byte characters the lexer gives the tokens of reading with look-ahead. -/
theorem tokenize_eq_lookAhead (hl : l.Apart) {clause : String}
    (hc : ∀ c ∈ clause.toList, c.utf8Size = 1) :
    l.tokenize clause = l.lookAhead 0 [] clause.toList := by
  have hs : Steady l 0 .neutral := trivial
  exact run_eq_residual hl hc hs

/-- A lexicon of symbols that overlap. -/
def overlapping : Lexicon where
  symbols := ["ab".toList, "abcd".toList, "c".toList, "bca".toList]
  quotes := ['"']
  delimiters := [' ']
  symbols_ne_nil := by decide

/-- After `ab` has been held back twice, `abc` turns out to be two symbols, and `abcd` to be one. -/
theorem overlapping_tokenize :
    overlapping.tokenize "xabc\"a \\\" b\"y\"abcd" =
      overlapping.lookAhead 0 [] "xabc\"a \\\" b\"y\"abcd".toList :=
  tokenize_eq_lookAhead ⟨by decide, by decide⟩ (by decide)

end WhereClause.Lexicon
