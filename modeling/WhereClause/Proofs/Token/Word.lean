import WhereClause.Proofs.Token.Quotation

/-!
# Words of the standard lexicon

No symbol of the standard lexicon is longer than two bytes, and only `<` and `>` are symbols that
may grow. So a lexer looks back two bytes: it holds a bracket until the next character comes, and
if that one is wider than a byte, the bracket stays in the word. Apart from such brackets a word has
no symbol, and its first character is no quote.

Each word is one token, if a blank, a symbol of one character or the end follows it; and all tokens
are such words, symbols and quoted strings.
-/

namespace WhereClause.Lexicon

/-! ## Symbols -/

theorem mem_symbols_length : ∀ s ∈ standard.symbols, s.length ≤ 2 := by
  decide

theorem mem_symbols_utf8Size : ∀ s ∈ standard.symbols, ∀ c ∈ s, c.utf8Size = 1 := by
  decide

theorem mem_symbols_pair : ∀ s ∈ standard.symbols, s.length = 2 → s.getLast? = some '=' := by
  decide

theorem reach_standard : standard.reach = 2 := by
  decide

theorem mayGrow_pair (z c : Char) : standard.mayGrow [z, c] = false := by
  simp only [mayGrow, List.any_eq_false, Bool.and_eq_true, decide_eq_true_eq, not_and]
  intro s hs hl
  have := mem_symbols_length s hs
  simp only [List.length_cons, List.length_nil] at hl
  omega

theorem eq_of_pair_mem {z c : Char} (h : [z, c] ∈ standard.symbols) : c = '=' := by
  simpa using mem_symbols_pair _ h rfl

theorem utf8Size_of_mem {c : Char} (h : [c] ∈ standard.symbols) : c.utf8Size = 1 :=
  mem_symbols_utf8Size _ h c (by simp)

/-! ## Characters of words -/

/-- The character is part of the word in which it stands. -/
def Plain (c : Char) : Prop :=
  standard.isDelimiter c = false ∧ [c] ∉ standard.symbols

/-- The character is added to the word in which it stands, and may be cut off it later. -/
def Lasting (c : Char) : Prop :=
  standard.isDelimiter c = false ∧ ([c] ∈ standard.symbols → standard.mayGrow [c] = true)

/-- The character `d` after `c` leaves `c` in the word. -/
def Joins (c d : Char) : Prop :=
  [c] ∉ standard.symbols ∨ 1 < d.utf8Size

instance (c : Char) : Decidable (Plain c) := inferInstanceAs (Decidable (_ ∧ _))

instance (c : Char) : Decidable (Lasting c) := inferInstanceAs (Decidable (_ ∧ _))

instance (c d : Char) : Decidable (Joins c d) := inferInstanceAs (Decidable (_ ∨ _))

/-- The characters of a word that has not ended, latest first. -/
inductive Growing : List Char → Prop
  | single {c : Char} : standard.isQuote c = false → Lasting c → Growing [c]
  | cons {c z : Char} {text : List Char} :
    Lasting c → Joins z c → Growing (z :: text) → Growing (c :: z :: text)

/-- The characters of a word in reading order. -/
def IsWord (word : List Char) : Prop :=
  Growing word.reverse ∧ ∀ c ∈ word.getLast?, [c] ∉ standard.symbols

variable {c z : Char} {text word rest : List Char}

theorem Plain.lasting (h : Plain c) : Lasting c :=
  ⟨h.1, fun hs => absurd hs h.2⟩

theorem Growing.ne_nil (h : Growing text) : text ≠ [] := by
  cases h <;> simp

theorem Joins.not_mem (h : Joins z c) (hc : c.utf8Size = 1) : [z] ∉ standard.symbols := by
  rcases h with h | h
  · exact h
  · omega

theorem Lasting.ne_equals (h : Lasting c) : c ≠ '=' := by
  rintro rfl
  exact absurd (h.2 (by decide)) (by decide)

theorem growing_of_plain (hne : text ≠ []) (hp : ∀ c ∈ text, Plain c)
    (hq : ∀ c ∈ text.getLast?, standard.isQuote c = false) : Growing text := by
  induction text with
  | nil => exact absurd rfl hne
  | cons c text ih =>
    cases text with
    | nil => exact .single (hq c rfl) (hp c (by simp)).lasting
    | cons z text =>
      have ht := ih (by simp) (fun d hd => hp d (by simp [hd])) fun d hd => hq d (by simpa using hd)
      exact .cons (hp c (by simp)).lasting (.inl (hp z (by simp)).2) ht

theorem Growing.lasting_of_mem (h : Growing text) : ∀ c ∈ text, Lasting c := by
  induction h with
  | single _ hc => simpa using hc
  | cons hc _ _ ih => exact List.forall_mem_cons.2 ⟨hc, ih⟩

/-- A minus is in no word. -/
theorem IsWord.minus_not_mem (h : IsWord word) : '-' ∉ word := by
  intro hm
  exact absurd (h.1.lasting_of_mem _ (List.mem_reverse.2 hm)) (by decide)

/-- Plain characters form a word, unless the first is a quote. -/
theorem isWord_of_plain (hne : word ≠ []) (hp : ∀ c ∈ word, Plain c)
    (hq : ∀ c ∈ word.head?, standard.isQuote c = false) : IsWord word := by
  refine ⟨growing_of_plain (by simpa using hne) (fun c hc => hp c (List.mem_reverse.1 hc)) ?_,
    fun c hc => (hp c (List.mem_of_getLast? hc)).2⟩
  rwa [List.getLast?_reverse]

/-! ## Looking back -/

/-- The latest characters that take two bytes. -/
theorem latest_two (c : Char) (text : List Char) :
    latest 2 [] (c :: text) =
      if 1 < c.utf8Size then ([c], text)
      else match text with
        | [] => ([c], [])
        | z :: text => ([z, c], text) := by
  have hc := c.utf8Size_pos
  rw [latest, if_neg (by omega)]
  by_cases h : 1 < c.utf8Size
  · rw [if_pos h, show 2 - c.utf8Size = 0 by omega]
    cases text <;> simp [latest]
  · rw [if_neg h, show 2 - c.utf8Size = 1 by omega]
    cases text with
    | nil => rfl
    | cons z text =>
      have hz := z.utf8Size_pos
      rw [latest, if_neg (by omega), show 1 - z.utf8Size = 0 by omega]
      cases text <;> simp [latest]

theorem symbolAt?_single (c : Char) :
    standard.symbolAt? [c] = if [c] ∈ standard.symbols then some [c] else none := by
  simp [symbolAt?, symbolUpTo?]

theorem symbolAt?_pair (z c : Char) :
    standard.symbolAt? [z, c] =
      if [z, c] ∈ standard.symbols then some [z, c]
      else if [z] ∈ standard.symbols then some [z] else none := by
  simp [symbolAt?, symbolUpTo?]

theorem findSymbol?_single (final : Bool) (c : Char) :
    standard.findSymbol? final [c] =
      if !final && standard.mayGrow [c] then none
      else if [c] ∈ standard.symbols then some ⟨[], [c], []⟩ else none := by
  rw [findSymbol?, symbolAt?_single]
  by_cases hs : [c] ∈ standard.symbols <;> simp [hs, findSymbol?]

theorem findSymbol?_pair (final : Bool) (z c : Char) :
    standard.findSymbol? final [z, c] =
      if [z, c] ∈ standard.symbols then some ⟨[], [z, c], []⟩
      else if [z] ∈ standard.symbols then some ⟨[], [z], [c]⟩
      else (standard.findSymbol? final [c]).map
        fun cut => { cut with before := z :: cut.before } := by
  rw [findSymbol?, symbolAt?_pair, mayGrow_pair]
  by_cases hp : [z, c] ∈ standard.symbols
  · simp [hp]
  · by_cases hz : [z] ∈ standard.symbols <;> simp [hp, hz]

theorem cutLatest?_single (final : Bool) (c : Char) :
    standard.cutLatest? final [c] =
      if !final && standard.mayGrow [c] then none
      else if [c] ∈ standard.symbols then some ⟨[], [c], []⟩ else none := by
  have hl : latest 2 [] [c] = ([c], []) := by simp [latest_two]
  rw [cutLatest?, reach_standard, hl, findSymbol?_single]
  split
  · rfl
  · split <;> rfl

/-- A wide character hides what stands before it. -/
theorem cutLatest?_wide (final : Bool) (hc : 1 < c.utf8Size) (text : List Char) :
    standard.cutLatest? final (c :: text) = none := by
  have hs : [c] ∉ standard.symbols := fun hm => by
    have := utf8Size_of_mem hm
    omega
  rw [cutLatest?, reach_standard, latest_two, if_pos hc, findSymbol?_single]
  simp [hs]

theorem cutLatest?_pair (final : Bool) (hc : c.utf8Size = 1) (z : Char) (text : List Char) :
    standard.cutLatest? final (c :: z :: text) =
      if [z, c] ∈ standard.symbols then some ⟨text.reverse, [z, c], []⟩
      else if [z] ∈ standard.symbols then some ⟨text.reverse, [z], [c]⟩
      else if !final && standard.mayGrow [c] then none
      else if [c] ∈ standard.symbols then some ⟨(z :: text).reverse, [c], []⟩ else none := by
  have hl : latest 2 [] (c :: z :: text) = ([z, c], text) := by
    rw [latest_two, if_neg (by omega)]
  rw [cutLatest?, reach_standard, hl, findSymbol?_pair, findSymbol?_single]
  split
  · simp
  · split
    · simp
    · split
      · rfl
      · split <;> simp

/-- Nothing is cut off a word that has not ended. -/
theorem Growing.cutLatest?_eq_none (h : Growing text) : standard.cutLatest? false text = none := by
  cases h with
  | @single c _ hc =>
    rw [cutLatest?_single]
    by_cases hs : [c] ∈ standard.symbols
    · simp [hc.2 hs]
    · simp [hs]
  | @cons c z text hc hj _ =>
    by_cases hw : 1 < c.utf8Size
    · exact cutLatest?_wide false hw _
    · have hone : c.utf8Size = 1 := by
        have := c.utf8Size_pos
        omega
      have hp : [z, c] ∉ standard.symbols := fun hm => hc.ne_equals (eq_of_pair_mem hm)
      rw [cutLatest?_pair false hone, if_neg hp, if_neg (hj.not_mem hone)]
      by_cases hs : [c] ∈ standard.symbols
      · simp [hc.2 hs]
      · simp [hs]

/-- Nothing is cut off a word at its end. -/
theorem Growing.cutLatest?_final (h : Growing (c :: text)) (hc : [c] ∉ standard.symbols) :
    standard.cutLatest? true (c :: text) = none := by
  cases h with
  | single _ _ =>
    rw [cutLatest?_single]
    simp [hc]
  | @cons _ z text hl hj _ =>
    by_cases hw : 1 < c.utf8Size
    · exact cutLatest?_wide true hw _
    · have hone : c.utf8Size = 1 := by
        have := c.utf8Size_pos
        omega
      have hp : [z, c] ∉ standard.symbols := fun hm => hl.ne_equals (eq_of_pair_mem hm)
      rw [cutLatest?_pair true hone, if_neg hp, if_neg (hj.not_mem hone)]
      simp [hc]

theorem split_growing (h : Growing text) (start : Nat) :
    standard.split false ⟨start, text⟩ = ([], ⟨start, text⟩) :=
  split_of_none h.cutLatest?_eq_none

theorem split_final (h : Growing (c :: text)) (hc : [c] ∉ standard.symbols) (start : Nat) :
    standard.split true ⟨start, c :: text⟩ = ([], ⟨start, c :: text⟩) :=
  split_of_none (h.cutLatest?_final hc)

theorem split_empty (final : Bool) (start : Nat) :
    standard.split final ⟨start, []⟩ = ([], ⟨start, []⟩) :=
  split_of_none rfl

/-! ## Reading words and symbols -/

/-- A symbol of one character that ends the word before it at once. -/
def Mark (c : Char) : Prop :=
  [c] ∈ standard.symbols ∧ standard.mayGrow [c] = false ∧ c ≠ '='

instance (c : Char) : Decidable (Mark c) := inferInstanceAs (Decidable (_ ∧ _))

/-- What follows a word or a symbol and is no part of it. -/
def Ends (rest : List Char) : Prop :=
  ∀ c ∈ rest.head?, standard.isDelimiter c = true ∨ Mark c

theorem not_isQuote_of_mem :
    ∀ s ∈ standard.symbols, ∀ c ∈ s,
      standard.isQuote c = false ∧ standard.isDelimiter c = false := by
  decide

theorem scan_delimiter (hc : standard.isDelimiter c = true) (offset : Nat) (rest : List Char) :
    standard.scan offset (c :: rest) = standard.scan (offset + c.utf8Size) rest := by
  have hq : standard.isQuote c = false := by
    have : ∀ d ∈ standard.delimiters, standard.isQuote d = false := by decide
    exact this c (List.contains_iff_mem.1 hc)
  rw [scan, run_cons, step, stepMode]
  simp [hq, hc, scan]

/-- A lexer takes the characters of a word one by one. -/
theorem feed_growing (h : Growing text) (offset : Nat) :
    standard.feed ⟨.neutral, offset⟩ text.reverse =
      ([], ⟨.word ⟨offset, text⟩, offset + byteSize text⟩) := by
  induction h with
  | @single c hq hc =>
    have hs := split_growing (.single hq hc) offset
    simp [feed, step, stepMode, stepWord, hq, hc.1, Held.push, hs]
  | @cons c z text hc hj ht ih =>
    have hs := split_growing (.cons hc hj ht) offset
    have hstep : standard.stepWord (offset + byteSize (z :: text)) ⟨offset, z :: text⟩ c =
        ([], .word ⟨offset, c :: z :: text⟩) := by
      rw [stepWord, if_neg (by simp [hc.1])]
      by_cases hq : standard.isQuote c = true
      · -- a quote is one byte, so the character before it is no symbol
        have hone : ∀ d ∈ standard.quotes, d.utf8Size = 1 := by decide
        have hz := hj.not_mem (hone c (List.contains_iff_mem.1 hq))
        simp [hq, split_final ht hz, Held.push, hs]
      · simp [hq, Held.push, hs]
    have hfeed : standard.feed ⟨.word ⟨offset, z :: text⟩, offset + byteSize (z :: text)⟩ [c] =
        ([], ⟨.word ⟨offset, c :: z :: text⟩, offset + byteSize (z :: text) + c.utf8Size⟩) := by
      simp only [feed, step, stepMode, hstep, List.append_nil]
    rw [List.reverse_cons, feed_append, ih, hfeed, byteSize_cons c, Nat.add_assoc,
      Nat.add_comm c.utf8Size]
    rfl

theorem split_symbol (hs : [c] ∈ standard.symbols) (hg : standard.mayGrow [c] = false)
    (start : Nat) :
    standard.split false ⟨start, [c]⟩ =
      ([.ofSymbol [c] ⟨start, start + c.utf8Size⟩], ⟨start + c.utf8Size, []⟩) := by
  have hcut : standard.cutLatest? false [c] = some ⟨[], [c], []⟩ := by
    rw [cutLatest?_single, if_neg (by simp [hg]), if_pos hs]
  rw [split_of_some hcut]
  simp [split_empty, wordAt]

/-- A symbol that cannot grow is a token, whatever follows. -/
theorem scan_single (hs : [c] ∈ standard.symbols) (hg : standard.mayGrow [c] = false)
    (offset : Nat) (rest : List Char) :
    standard.scan offset (c :: rest) =
      .ofSymbol [c] ⟨offset, offset + c.utf8Size⟩ ::
        standard.scan (offset + c.utf8Size) rest := by
  obtain ⟨hq, hd⟩ := not_isQuote_of_mem _ hs c (by simp)
  rw [scan, run_cons, step, stepMode]
  simp [stepWord, hq, hd, Held.push, split_symbol hs hg, scan]

/-- A word is one token. -/
theorem scan_word (hw : IsWord word) (hr : Ends rest) (offset : Nat) :
    standard.scan offset (word ++ rest) =
      .ofWord word ⟨offset, offset + byteSize word⟩ ::
        standard.scan (offset + byteSize word) rest := by
  obtain ⟨hp, hl⟩ := hw
  have hne : word ≠ [] := by simpa using hp.ne_nil
  have hone : wordAt offset word = [.ofWord word ⟨offset, offset + byteSize word⟩] := by
    simp [wordAt, hne]
  cases ht : word.reverse with
  | nil => exact absurd ht hp.ne_nil
  | cons z text =>
    rw [ht] at hp
    have hword : word = (z :: text).reverse := by rw [← ht, List.reverse_reverse]
    have hz : [z] ∉ standard.symbols := hl z (by simp [hword])
    have hend : standard.endWord ⟨offset, z :: text⟩ =
        [.ofWord word ⟨offset, offset + byteSize word⟩] := by
      rw [← hone, hword]
      simp only [endWord, split_final hp hz, tokens_eq_wordAt, List.nil_append]
    have hsize : byteSize (z :: text) = byteSize word := by rw [hword, byteSize_reverse]
    have hfeed := feed_growing hp offset
    rw [← hword, hsize] at hfeed
    rw [scan, run_append, hfeed, List.nil_append]
    cases rest with
    | nil => simpa [finish] using hend
    | cons c rest =>
      rcases hr c rfl with hd | hm
      · rw [scan_delimiter hd, run_cons, step, stepMode, stepWord, if_pos hd, hend]
        rfl
      · obtain ⟨hs, hg, he⟩ := hm
        obtain ⟨hq, hd⟩ := not_isQuote_of_mem _ hs c (by simp)
        have hcut : standard.cutLatest? false (c :: z :: text) = some ⟨word, [c], []⟩ := by
          rw [cutLatest?_pair false (utf8Size_of_mem hs),
            if_neg fun hm => he (eq_of_pair_mem hm), if_neg hz, if_neg (by simp [hg]), if_pos hs,
            hword]
        rw [scan_single hs hg, run_cons, step, stepMode, stepWord, if_neg (by simp [hd]),
          if_neg (by simp [hq]), Held.push, split_of_some hcut, hone]
        simp [split_empty, scan]

theorem scan_pair (hs : [z, c] ∈ standard.symbols) (offset : Nat) (rest : List Char) :
    standard.scan offset (z :: c :: rest) =
      .ofSymbol [z, c] ⟨offset, offset + byteSize [z, c]⟩ ::
        standard.scan (offset + byteSize [z, c]) rest := by
  obtain ⟨hq, hd⟩ := not_isQuote_of_mem _ hs z (by simp)
  obtain ⟨hqc, hdc⟩ := not_isQuote_of_mem _ hs c (by simp)
  have hg : standard.mayGrow [z] = true :=
    List.any_eq_true.2 ⟨[z, c], hs, by simp⟩
  have hfeed := feed_growing (.single hq ⟨hd, fun _ => hg⟩) offset
  have hcut : standard.cutLatest? false [c, z] = some ⟨[], [z, c], []⟩ := by
    rw [cutLatest?_pair false (mem_symbols_utf8Size _ hs c (by simp)), if_pos hs]
    rfl
  rw [List.reverse_singleton] at hfeed
  rw [scan, ← List.singleton_append, run_append, hfeed, run_cons, step, stepMode, stepWord,
    if_neg (by simp [hdc]), if_neg (by simp [hqc]), Held.push, split_of_some hcut]
  simp [split_empty, wordAt, scan, Nat.add_assoc]

/-- A symbol that may grow is a token at the end of a word. -/
theorem scan_bracket (hs : [c] ∈ standard.symbols) (hg : standard.mayGrow [c] = true)
    (hr : Ends rest) (offset : Nat) :
    standard.scan offset (c :: rest) =
      .ofSymbol [c] ⟨offset, offset + c.utf8Size⟩ ::
        standard.scan (offset + c.utf8Size) rest := by
  obtain ⟨hq, hd⟩ := not_isQuote_of_mem _ hs c (by simp)
  have hfeed := feed_growing (.single hq ⟨hd, fun _ => hg⟩) offset
  have hend : standard.endWord ⟨offset, [c]⟩ = [.ofSymbol [c] ⟨offset, offset + c.utf8Size⟩] := by
    have hcut : standard.cutLatest? true [c] = some ⟨[], [c], []⟩ := by
      rw [cutLatest?_single, if_neg (by simp), if_pos hs]
    rw [endWord, split_of_some hcut]
    simp [split_empty, wordAt, Held.tokens]
  rw [List.reverse_singleton] at hfeed
  rw [scan, ← List.singleton_append, run_append, hfeed, List.nil_append, byteSize_cons,
    byteSize_nil, Nat.add_zero]
  cases rest with
  | nil => simpa [finish] using hend
  | cons d rest =>
    rcases hr d rfl with hdel | hm
    · rw [scan_delimiter hdel, run_cons, step, stepMode, stepWord, if_pos hdel, hend]
      rfl
    · obtain ⟨hds, hdg, he⟩ := hm
      obtain ⟨hdq, hdd⟩ := not_isQuote_of_mem _ hds d (by simp)
      have hcut : standard.cutLatest? false [d, c] = some ⟨[], [c], [d]⟩ := by
        rw [cutLatest?_pair false (utf8Size_of_mem hds), if_neg fun hm => he (eq_of_pair_mem hm),
          if_pos hs]
        rfl
      rw [scan_single hds hdg, run_cons, step, stepMode, stepWord, if_neg (by simp [hdd]),
        if_neg (by simp [hdq]), Held.push, split_of_some hcut]
      simp [split_symbol hds hdg, wordAt, scan]

/-- A symbol is one token. -/
theorem scan_symbol {symbol : List Char} (hs : symbol ∈ standard.symbols) (hr : Ends rest)
    (offset : Nat) :
    standard.scan offset (symbol ++ rest) =
      .ofSymbol symbol ⟨offset, offset + byteSize symbol⟩ ::
        standard.scan (offset + byteSize symbol) rest := by
  match symbol with
  | [] => exact absurd hs standard.symbols_ne_nil
  | [c] =>
    by_cases hg : standard.mayGrow [c] = true
    · exact scan_bracket hs hg hr offset
    · exact scan_single hs (by simpa using hg) offset rest
  | [z, c] => exact scan_pair hs offset rest
  | _ :: _ :: _ :: _ => exact absurd (mem_symbols_length _ hs) (by simp)

/-! ## Tokens -/

/-- What the tokens of a standard lexer are. -/
inductive Lexical : Token.Kind → Prop
  | symbol {symbol : List Char} {span : Span} :
    symbol ∈ standard.symbols → Lexical (Token.ofSymbol symbol span).kind
  | word {word : List Char} {span : Span} : IsWord word → Lexical (Token.ofWord word span).kind
  | quoted {text : String} {quote : Char} : Lexical (.literal (.string text) (some quote))

/-- A word that has ended, or no character at all, latest first. -/
def Ended (text : List Char) : Prop :=
  text ≠ [] → IsWord text.reverse

/-- The characters that a standard lexer holds. -/
def Keeps (text : List Char) : Prop :=
  text ≠ [] → Growing text

theorem lexical_wordAt (h : Ended word.reverse) (start : Nat) :
    ∀ t ∈ wordAt start word, Lexical t.kind := by
  intro t ht
  rw [wordAt] at ht
  split at ht
  · cases ht
  · rename_i hne
    rw [List.mem_singleton.1 ht]
    refine .word ?_
    have := h (by simpa using hne)
    rwa [List.reverse_reverse] at this

/-- Before a character of one byte, a word has ended. -/
theorem Growing.ended_tail (h : Growing (c :: text)) (hc : c.utf8Size = 1) : Ended text := by
  intro hne
  cases h with
  | single => exact absurd rfl hne
  | @cons _ z text _ hj ht =>
    refine ⟨by rwa [List.reverse_reverse], fun d hd => ?_⟩
    rw [List.getLast?_reverse, List.head?_cons, Option.mem_some_iff] at hd
    exact hd ▸ hj.not_mem hc

theorem Growing.isWord (h : Growing (c :: text)) (hc : [c] ∉ standard.symbols) :
    IsWord (c :: text).reverse := by
  refine ⟨by rwa [List.reverse_reverse], fun d hd => ?_⟩
  rw [List.getLast?_reverse, List.head?_cons, Option.mem_some_iff] at hd
  exact hd ▸ hc

/-- A split gives tokens of a standard lexer and keeps the beginning of a word. -/
def Sound (split : List Token × Held) : Prop :=
  (∀ t ∈ split.1, Lexical t.kind) ∧ Keeps split.2.text

theorem Sound.of_none {final : Bool} {start : Nat} (hp : Keeps text)
    (h : standard.cutLatest? final text = none) :
    Sound (standard.split final ⟨start, text⟩) := by
  rw [split_of_none h]
  exact ⟨by simp, hp⟩

theorem Sound.of_some {final : Bool} {start : Nat} (cut : Cut)
    (h : standard.cutLatest? final text = some cut) (hb : Ended cut.before.reverse)
    (hs : cut.symbol ∈ standard.symbols)
    (ha : ∀ stop, Sound (standard.split final ⟨stop, cut.after.reverse⟩)) :
    Sound (standard.split final ⟨start, text⟩) := by
  rw [split_of_some h]
  refine ⟨fun t ht => ?_, (ha _).2⟩
  rcases List.mem_append.1 ht with ht | ht
  · exact lexical_wordAt hb start t ht
  · rcases List.mem_cons.1 ht with rfl | ht
    · exact .symbol hs
    · exact (ha _).1 t ht

theorem sound_split_empty (final : Bool) (start : Nat) :
    Sound (standard.split final ⟨start, []⟩) :=
  .of_none (fun h => absurd rfl h) rfl

theorem sound_split_single (hd : standard.isDelimiter c = false) (hq : standard.isQuote c = false)
    (start : Nat) : Sound (standard.split false ⟨start, [c]⟩) := by
  by_cases hc : Lasting c
  · have hp := Growing.single hq hc
    exact .of_none (fun _ => hp) hp.cutLatest?_eq_none
  · simp only [Lasting, hd, true_and, Classical.not_imp, Bool.not_eq_true] at hc
    obtain ⟨hs, hg⟩ := hc
    refine .of_some ⟨[], [c], []⟩ ?_ (fun h => absurd rfl h) hs (sound_split_empty false)
    rw [cutLatest?_single, if_neg (by simp [hg]), if_pos hs]

/-- A character is added to a word, or it ends the word as a symbol or after one. -/
theorem sound_split_cons (hp : Growing (z :: text)) (hd : standard.isDelimiter c = false)
    (hq : standard.isQuote c = false) (start : Nat) :
    Sound (standard.split false ⟨start, c :: z :: text⟩) := by
  by_cases hpair : [z, c] ∈ standard.symbols
  · refine .of_some ⟨text.reverse, [z, c], []⟩ ?_ ?_ hpair (sound_split_empty false)
    · rw [cutLatest?_pair false (mem_symbols_utf8Size _ hpair c (by simp)), if_pos hpair]
    · rw [List.reverse_reverse]
      exact hp.ended_tail (mem_symbols_utf8Size _ hpair z (by simp))
  · by_cases hj : Joins z c
    · by_cases hc : Lasting c
      · have hp' := Growing.cons hc hj hp
        exact .of_none (fun _ => hp') hp'.cutLatest?_eq_none
      · simp only [Lasting, hd, true_and, Classical.not_imp, Bool.not_eq_true] at hc
        obtain ⟨hs, hg⟩ := hc
        have hone := utf8Size_of_mem hs
        have hz := hj.not_mem hone
        refine .of_some ⟨(z :: text).reverse, [c], []⟩ ?_ ?_ hs (sound_split_empty false)
        · rw [cutLatest?_pair false hone, if_neg hpair, if_neg hz, if_neg (by simp [hg]), if_pos hs]
        · rw [List.reverse_reverse]
          exact fun _ => hp.isWord hz
    · simp only [Joins, not_or, Decidable.not_not, Nat.not_lt] at hj
      have hone : c.utf8Size = 1 := by
        have := c.utf8Size_pos
        omega
      refine .of_some ⟨text.reverse, [z], [c]⟩ ?_ ?_ hj.1 fun stop =>
        sound_split_single hd hq stop
      · rw [cutLatest?_pair false hone, if_neg hpair, if_pos hj.1]
      · rw [List.reverse_reverse]
        exact hp.ended_tail (utf8Size_of_mem hj.1)

/-- At its end a word is cut from a last symbol. -/
theorem split_final_eq (hp : Growing (z :: text)) (hz : [z] ∈ standard.symbols) :
    standard.cutLatest? true (z :: text) = some ⟨text.reverse, [z], []⟩ := by
  cases hp with
  | single =>
    rw [cutLatest?_single, if_neg (by simp), if_pos hz]
    rfl
  | @cons _ y text hl hj _ =>
    have hone := utf8Size_of_mem hz
    rw [cutLatest?_pair true hone, if_neg fun hm => hl.ne_equals (eq_of_pair_mem hm),
      if_neg (hj.not_mem hone), if_neg (by simp), if_pos hz]

/-- At its end a word is given out. -/
theorem sound_split_final (hp : Growing (z :: text)) (start : Nat) :
    Sound (standard.split true ⟨start, z :: text⟩) ∧
      Ended (standard.split true ⟨start, z :: text⟩).2.text := by
  by_cases hz : [z] ∈ standard.symbols
  · have hcut := split_final_eq hp hz
    refine ⟨.of_some _ hcut ?_ hz (sound_split_empty true), ?_⟩
    · rw [List.reverse_reverse]
      exact hp.ended_tail (utf8Size_of_mem hz)
    · rw [split_of_some hcut]
      simp [split_empty, Ended]
  · rw [split_final hp hz]
    exact ⟨⟨by simp, fun _ => hp⟩, fun _ => hp.isWord hz⟩

/-- A lexer that reads a word holds the beginning of one. -/
def Keeping : Lexer.Mode → Prop
  | .word held => Growing held.text
  | _ => True

theorem lexical_endWord {held : Held} (h : Keeps held.text) :
    ∀ t ∈ standard.endWord held, Lexical t.kind := by
  obtain ⟨start, text⟩ := held
  cases text with
  | nil =>
    rw [endWord, split_empty]
    simp [Held.tokens]
  | cons z text =>
    obtain ⟨hs, he⟩ := sound_split_final (h (by simp)) start
    intro t ht
    rcases List.mem_append.1 ht with ht | ht
    · exact hs.1 t ht
    · rw [tokens_eq_wordAt] at ht
      exact lexical_wordAt (by rwa [List.reverse_reverse]) _ t ht

/-- A character of a word completes tokens of a standard lexer. -/
theorem lexical_stepWord {held : Held} (h : Keeps held.text)
    (hc : standard.isQuote c = true → held.text ≠ []) (offset : Nat) :
    (∀ t ∈ (standard.stepWord offset held c).1, Lexical t.kind) ∧
      Keeping (standard.stepWord offset held c).2 := by
  obtain ⟨start, text⟩ := held
  unfold stepWord
  split
  · exact ⟨lexical_endWord h, trivial⟩
  · rename_i hd
    have hd : standard.isDelimiter c = false := by simpa using hd
    split
    · rename_i hq
      cases text with
      | nil => exact absurd rfl (hc hq)
      | cons z text =>
        obtain ⟨⟨ht, hk⟩, he⟩ := sound_split_final (h (by simp)) start
        generalize standard.split true ⟨start, z :: text⟩ = p at ht hk he
        obtain ⟨tokens, start', text'⟩ := p
        cases text' with
        | nil => exact ⟨ht, trivial⟩
        | cons y text' =>
          have hy : [y] ∉ standard.symbols := (he (by simp)).2 y (by simp)
          have hcs : [c] ∉ standard.symbols := fun hm => by
            have := (not_isQuote_of_mem _ hm c (by simp)).1
            simp [hq] at this
          have hp := Growing.cons ⟨hd, fun hm => absurd hm hcs⟩ (.inl hy) (hk (by simp))
          simp only [List.isEmpty_cons, Bool.false_eq_true, if_false, Held.push,
            split_growing hp, List.append_nil]
          exact ⟨ht, hp⟩
    · rename_i hq
      have hq : standard.isQuote c = false := by simpa using hq
      have hs : Sound (standard.split false (Held.push ⟨start, text⟩ c)) := by
        cases text with
        | nil => exact sound_split_single hd hq start
        | cons z text => exact sound_split_cons (h (by simp)) hd hq start
      refine ⟨hs.1, ?_⟩
      generalize standard.split false (Held.push ⟨start, text⟩ c) = p at hs
      by_cases hne : p.2.text = []
      · simp [hne, Keeping]
      · simpa [hne, Keeping] using hs.2 hne

theorem lexical_stepMode {mode : Lexer.Mode} (h : Keeping mode) (offset : Nat) (c : Char) :
    (∀ t ∈ (standard.stepMode offset mode c).1, Lexical t.kind) ∧
      Keeping (standard.stepMode offset mode c).2 := by
  cases mode with
  | neutral =>
    rw [stepMode]
    split
    · exact ⟨by simp, trivial⟩
    · rename_i hq
      split
      · exact ⟨by simp, trivial⟩
      · exact lexical_stepWord (fun h => absurd rfl h) (fun hq' => absurd hq' hq) offset
  | word held =>
    exact lexical_stepWord (fun _ => h) (fun _ => Growing.ne_nil h) offset
  | quoted quote start text escaped =>
    rw [stepMode, stepQuoted]
    split
    · split
      · exact ⟨by simp, trivial⟩
      · exact ⟨by simp [quotedToken, Lexical.quoted], trivial⟩
    · exact ⟨by simp, trivial⟩

theorem lexical_run {lexer : Lexer} (h : Keeping lexer.mode) (input : List Char) :
    ∀ t ∈ standard.run lexer input, Lexical t.kind := by
  induction input generalizing lexer with
  | nil =>
    obtain ⟨mode, offset⟩ := lexer
    cases mode with
    | neutral => simp [finish]
    | word held => exact lexical_endWord fun _ => h
    | quoted => simp [finish, quotedToken, Lexical.quoted]
  | cons c input ih =>
    rw [run_cons]
    obtain ⟨ht, hm⟩ := lexical_stepMode h lexer.offset c
    exact List.forall_mem_append.2 ⟨ht, ih hm⟩

/-- The tokens of a clause are words, symbols and quoted strings. -/
theorem lexical_tokenize (clause : String) : ∀ t ∈ standard.tokenize clause, Lexical t.kind := by
  have h : Keeping (Lexer.mode {}) := trivial
  exact lexical_run h clause.toList

end WhereClause.Lexicon
