import WhereClause.Proofs.Token.Longest
import WhereClause.Proofs.Token.Searches

/-!
# Lexical rules as sets

The rules of a lexicon are lists, but only their members matter: rules in another order, or with
repetitions, give the same tokens. For quotes and delimiters this is plain. Of the symbols that
start a text the longest one counts, and there is only one of each length; so the answer to a search
does not depend on the order in which symbols are tried, as long as longer ones come first.
-/

namespace WhereClause.Lexicon

variable (l : Lexicon)

/-- The symbols by decreasing number of bytes; those of one size keep their order. -/
def ordered : List (List Char) :=
  l.symbols.mergeSort fun s t => decide (byteSize t ≤ byteSize s)

variable {l} {l' : Lexicon} {final : Bool} {text symbol : List Char}

/-! ## The first symbol that matches -/

/-- Of two texts that start a third one, the one with more characters has more bytes. -/
theorem length_le_of_byteSize_le {s t : List Char} (hs : s <+: text) (ht : t <+: text)
    (h : byteSize t ≤ byteSize s) : t.length ≤ s.length := by
  by_contra hlt
  obtain ⟨more, rfl⟩ := List.prefix_of_prefix_length_le hs ht (by omega)
  have hmore := length_le_byteSize more
  rw [byteSize_append] at h
  rw [List.length_append] at hlt
  omega

/-- The first symbol that starts the text, if those with more bytes are tried first. -/
theorem find?_eq_longest? {symbols : List (List Char)} (hm : ∀ s, s ∈ symbols ↔ s ∈ l.symbols)
    (hs : symbols.Pairwise fun s t => byteSize t ≤ byteSize s) :
    symbols.find? (·.isPrefixOf text) = l.longest? text := by
  symm
  cases hf : symbols.find? (·.isPrefixOf text) with
  | none =>
    rw [longest?_eq_none_iff]
    intro symbol hmem hp
    have hno := List.find?_eq_none.1 hf symbol ((hm symbol).2 hmem)
    exact hno (List.isPrefixOf_iff_prefix.2 hp)
  | some found =>
    obtain ⟨hfound, before, after, rfl, hbefore⟩ := List.find?_eq_some_iff_append.1 hf
    have hp : found <+: text := List.isPrefixOf_iff_prefix.1 hfound
    rw [longest?_eq_some_iff]
    refine ⟨(hm found).1 (by simp), hp, fun other ho hop => ?_⟩
    -- what was tried before does not match, and what comes after has no more bytes
    rcases List.mem_append.1 ((hm other).2 ho) with hb | ha
    · have hno := hbefore other hb
      rw [List.isPrefixOf_iff_prefix.2 hop] at hno
      cases hno
    · rcases List.mem_cons.1 ha with rfl | ha
      · exact Nat.le_refl _
      · have hafter := (List.pairwise_append.1 hs).2.1
        exact length_le_of_byteSize_le hp hop ((List.pairwise_cons.1 hafter).1 other ha)

theorem pairwise_ordered : l.ordered.Pairwise fun s t => byteSize t ≤ byteSize s := by
  have hsorted : l.ordered.Pairwise fun s t => decide (byteSize t ≤ byteSize s) = true := by
    refine List.pairwise_mergeSort (fun a b c hab hbc => ?_) (fun a b => ?_) l.symbols
    · simp only [decide_eq_true_eq] at *
      omega
    · simp only [Bool.or_eq_true, decide_eq_true_eq]
      omega
  exact hsorted.imp of_decide_eq_true

theorem find?_ordered : l.ordered.find? (·.isPrefixOf text) = l.symbolAt? text := by
  rw [symbolAt?_eq_longest?]
  exact find?_eq_longest? (fun s => List.mem_mergeSort) pairwise_ordered

/-! ## Searches -/

theorem longest?_eq_of_mem_iff (h : ∀ s, s ∈ l.symbols ↔ s ∈ l'.symbols) :
    l'.longest? text = l.longest? text := by
  cases hl : l.longest? text with
  | none => simpa only [longest?_eq_none_iff, h] using hl
  | some symbol => simpa only [longest?_eq_some_iff, h] using hl

theorem mayGrow_eq_of_mem_iff (h : ∀ s, s ∈ l.symbols ↔ s ∈ l'.symbols) :
    l'.mayGrow text = l.mayGrow text := by
  rw [Bool.eq_iff_iff, mayGrow_iff, mayGrow_iff]
  simp only [h]

theorem reach_le_iff {n : Nat} : l.reach ≤ n ↔ ∀ s ∈ l.symbols, byteSize s ≤ n := by
  refine ⟨fun h s hs => (byteSize_le_reach hs).trans h, fun h => ?_⟩
  unfold reach
  generalize l.symbols = symbols at h
  induction symbols with
  | nil => exact Nat.zero_le n
  | cons s rest ih =>
    obtain ⟨hs, hrest⟩ := List.forall_mem_cons.1 h
    exact Nat.max_le.2 ⟨hs, ih hrest⟩

theorem reach_eq_of_mem_iff (h : ∀ s, s ∈ l.symbols ↔ s ∈ l'.symbols) : l'.reach = l.reach := by
  refine Nat.le_antisymm (reach_le_iff.2 fun s hs => ?_) (reach_le_iff.2 fun s hs => ?_)
  · exact byteSize_le_reach ((h s).2 hs)
  · exact byteSize_le_reach ((h s).1 hs)

theorem findSymbol?_eq_of_mem_iff (h : ∀ s, s ∈ l.symbols ↔ s ∈ l'.symbols) :
    l'.findSymbol? final text = l.findSymbol? final text := by
  induction text with
  | nil => rfl
  | cons c rest ih =>
    rw [findSymbol?, findSymbol?, symbolAt?_eq_longest?, symbolAt?_eq_longest?,
      mayGrow_eq_of_mem_iff h, longest?_eq_of_mem_iff h, ih]

theorem answer_eq_of_mem_iff (h : ∀ s, s ∈ l.symbols ↔ s ∈ l'.symbols) (search : Search) :
    l'.answer search = l.answer search := by
  simp only [answer, cutLatest?, reach_eq_of_mem_iff h, findSymbol?_eq_of_mem_iff h]

/-! ## Tokens -/

theorem eq_of_lexicon {rules : LexicalRules} (h : rules.lexicon = .ok l) :
    l.symbols = rules.symbols.map String.toList ∧ l.quotes = rules.quotes ∧
      l.delimiters = rules.delimiters := by
  unfold LexicalRules.lexicon at h
  split at h
  · cases h
  · cases h
    exact ⟨rfl, rfl, rfl⟩

theorem mem_symbols_iff_of_lexicon {rules rules' : LexicalRules} (h : rules.lexicon = .ok l)
    (h' : rules'.lexicon = .ok l') (hs : ∀ s, s ∈ rules.symbols ↔ s ∈ rules'.symbols)
    (s : List Char) : s ∈ l.symbols ↔ s ∈ l'.symbols := by
  rw [(eq_of_lexicon h).1, (eq_of_lexicon h').1, List.mem_map, List.mem_map]
  simp only [hs]

theorem sameMarks_of_lexicon {rules rules' : LexicalRules} (h : rules.lexicon = .ok l)
    (h' : rules'.lexicon = .ok l') (hq : ∀ c, c ∈ rules.quotes ↔ c ∈ rules'.quotes)
    (hd : ∀ c, c ∈ rules.delimiters ↔ c ∈ rules'.delimiters) : SameMarks l l' where
  quote c := by
    rw [isQuote, isQuote, (eq_of_lexicon h).2.1, (eq_of_lexicon h').2.1, Bool.eq_iff_iff,
      List.contains_iff_mem, List.contains_iff_mem, hq]
  delimiter c := by
    rw [isDelimiter, isDelimiter, (eq_of_lexicon h).2.2, (eq_of_lexicon h').2.2, Bool.eq_iff_iff,
      List.contains_iff_mem, List.contains_iff_mem, hd]

/-- Rules with the same symbols, quotes and delimiters, in any order and with any repetitions, give
the same tokens, although the first symbol that matches is looked up in the order of each. -/
theorem tokenize_eq_of_same_rules {rules rules' : LexicalRules} (h : rules.lexicon = .ok l)
    (h' : rules'.lexicon = .ok l') (hs : ∀ s, s ∈ rules.symbols ↔ s ∈ rules'.symbols)
    (hq : ∀ c, c ∈ rules.quotes ↔ c ∈ rules'.quotes)
    (hd : ∀ c, c ∈ rules.delimiters ↔ c ∈ rules'.delimiters) (clause : String) :
    l.tokenize clause = l'.tokenize clause ∧
      ∀ text, l.ordered.find? (·.isPrefixOf text) = l'.ordered.find? (·.isPrefixOf text) := by
  have hsymbols := mem_symbols_iff_of_lexicon h h' hs
  constructor
  · symm
    exact tokenize_eq_of_answers (sameMarks_of_lexicon h h' hq hd)
      fun search _ => answer_eq_of_mem_iff hsymbols search
  · intro text
    rw [find?_ordered, find?_ordered, symbolAt?_eq_longest?, symbolAt?_eq_longest?,
      longest?_eq_of_mem_iff hsymbols]

/-- Comparisons, some of which begin others. -/
def comparisons : LexicalRules where
  symbols := ["<", "<=", "<=>", "=", "=>", "=<"]
  quotes := ['"', '|']
  delimiters := [' ']

/-- The same in another order, with repetitions. -/
def rearranged : LexicalRules where
  symbols := ["=<", "=>", "<=>", "=", "<", "<=", "=>", "<"]
  quotes := ['|', '"', '|']
  delimiters := [' ', ' ']

/-- The symbols `<=`, `=>` and `=<` have one size and are tried in different orders. -/
theorem tokenize_rearranged : ∃ l l', comparisons.lexicon = .ok l ∧ rearranged.lexicon = .ok l' ∧
    l.tokenize "a<=>b =<=|x\"y|<=é" = l'.tokenize "a<=>b =<=|x\"y|<=é" := by
  have hsub : ∀ s ∈ comparisons.symbols, s ∈ rearranged.symbols := by decide
  have hsup : ∀ s ∈ rearranged.symbols, s ∈ comparisons.symbols := by decide
  have hquotes : ∀ c, c ∈ comparisons.quotes ↔ c ∈ rearranged.quotes := by
    simp [comparisons, rearranged, or_comm]
  have hdelimiters : ∀ c, c ∈ comparisons.delimiters ↔ c ∈ rearranged.delimiters := by
    simp [comparisons, rearranged]
  exact ⟨_, _, rfl, rfl, (tokenize_eq_of_same_rules rfl rfl (fun s => ⟨hsub s, hsup s⟩) hquotes
    hdelimiters _).1⟩

end WhereClause.Lexicon
