import Mathlib.Data.List.MinMax
import WhereClause.Token.Lexicon

/-!
# The longest symbol at a place

Of the symbols that start a text, the longest one counts. The search of a lexicon sees only the
characters read so far; what it finds, or passes by, is the same as with all that follows, if the
text cannot grow into a longer symbol or is followed by a character that is in no symbol.
-/

namespace WhereClause.Lexicon

variable (l : Lexicon)

/-- The longest symbol that starts the text. -/
def longest? (text : List Char) : Option (List Char) :=
  (l.symbols.filter (·.isPrefixOf text)).argmax List.length

/-- What follows begins with no character of a symbol. -/
def Bounded (rest : List Char) : Prop :=
  ∀ c ∈ rest.head?, ∀ symbol ∈ l.symbols, c ∉ symbol

/-- No symbol starts at a character of `text`, if `rest` follows. -/
def Free : List Char → List Char → Prop
  | [], _ => True
  | c :: text, rest => l.longest? (c :: text ++ rest) = none ∧ Free text rest

variable {l} {text rest symbol : List Char}

theorem bounded_nil : l.Bounded [] := by
  intro c hc
  cases hc

theorem longest?_eq_some_iff : l.longest? text = some symbol ↔
    symbol ∈ l.symbols ∧ symbol <+: text ∧
      ∀ other ∈ l.symbols, other <+: text → other.length ≤ symbol.length := by
  have hmem (s : List Char) : s ∈ l.symbols.filter (·.isPrefixOf text) ↔
      s ∈ l.symbols ∧ s <+: text := by simp
  constructor
  · intro h
    obtain ⟨hs, hp⟩ := (hmem symbol).1 (List.argmax_mem h)
    exact ⟨hs, hp, fun other ho hop => List.le_of_mem_argmax ((hmem other).2 ⟨ho, hop⟩) h⟩
  · rintro ⟨hs, hp, hmax⟩
    cases hl : l.longest? text with
    | none =>
      have hn : l.symbols.filter (·.isPrefixOf text) = [] := List.argmax_eq_none.1 hl
      have := (hmem symbol).2 ⟨hs, hp⟩
      rw [hn] at this
      cases this
    | some found =>
      obtain ⟨hf, hfp⟩ := (hmem found).1 (List.argmax_mem hl)
      have hle := hmax found hf hfp
      have hge : symbol.length ≤ found.length :=
        List.le_of_mem_argmax ((hmem symbol).2 ⟨hs, hp⟩) hl
      -- both are prefixes of the text, so equal lengths make them equal
      have he : found = symbol :=
        List.IsPrefix.eq_of_length (List.prefix_of_prefix_length_le hfp hp hle) (by omega)
      rw [he]

theorem longest?_eq_none_iff :
    l.longest? text = none ↔ ∀ symbol ∈ l.symbols, ¬ symbol <+: text := by
  rw [longest?, List.argmax_eq_none, List.filter_eq_nil_iff]
  simp

/-- Only the symbols that start a text matter. -/
theorem longest?_congr {text' : List Char}
    (h : ∀ symbol ∈ l.symbols, symbol <+: text ↔ symbol <+: text') :
    l.longest? text = l.longest? text' := by
  unfold longest?
  congr 1
  refine List.filter_congr fun symbol hs => ?_
  rw [Bool.eq_iff_iff]
  simpa using h symbol hs

theorem symbolUpTo?_eq_none {n : Nat} (h : l.symbolUpTo? text n = none) :
    ∀ symbol ∈ l.symbols, symbol.length ≤ n → ¬ symbol <+: text := by
  induction n with
  | zero =>
    intro symbol hs hn
    obtain rfl : symbol = [] := List.length_eq_zero_iff.1 (by omega)
    exact absurd hs l.symbols_ne_nil
  | succ n ih =>
    rw [symbolUpTo?] at h
    split at h
    · cases h
    · rename_i ht
      intro symbol hs hn hp
      rcases Nat.lt_or_ge n symbol.length with hlt | hle
      · have hl : symbol = text.take (n + 1) := by
          rw [List.prefix_iff_eq_take.1 hp]
          congr 1
          omega
        exact ht (by simpa [hl] using hs)
      · exact ih h symbol hs hle hp

theorem symbolUpTo?_eq_some {n : Nat} (h : l.symbolUpTo? text n = some symbol) :
    ∀ other ∈ l.symbols, other.length ≤ n → other <+: text → other.length ≤ symbol.length := by
  induction n with
  | zero => cases h
  | succ n ih =>
    rw [symbolUpTo?] at h
    intro other ho hn hp
    split at h
    · cases h
      have hlen := hp.length_le
      rw [List.length_take]
      omega
    · rename_i ht
      rcases Nat.lt_or_ge n other.length with hlt | hle
      · have hl : other = text.take (n + 1) := by
          rw [List.prefix_iff_eq_take.1 hp]
          congr 1
          omega
        exact absurd (by simpa [hl] using ho) ht
      · exact ih h other ho hle hp

/-- The search by decreasing length finds the longest symbol. -/
theorem symbolAt?_eq_longest? : l.symbolAt? text = l.longest? text := by
  cases h : l.symbolAt? text with
  | none =>
    symm
    rw [longest?_eq_none_iff]
    exact fun symbol hs hp => symbolUpTo?_eq_none h symbol hs hp.length_le hp
  | some symbol =>
    symm
    rw [longest?_eq_some_iff]
    obtain ⟨k, -, hk, hs⟩ := take_of_symbolUpTo? h
    exact ⟨hs, hk ▸ List.take_prefix _ _,
      fun other ho hp => symbolUpTo?_eq_some h other ho hp.length_le hp⟩

theorem mayGrow_iff : l.mayGrow text = true ↔
    ∃ symbol ∈ l.symbols, text <+: symbol ∧ text.length < symbol.length := by
  simp [mayGrow, and_comm]

/-- What follows a text changes its symbol only by completing a longer one. -/
theorem longest?_append (h : ∀ symbol ∈ l.symbols, text <+: symbol → text.length < symbol.length →
    ¬ symbol <+: text ++ rest) : l.longest? (text ++ rest) = l.longest? text := by
  refine longest?_congr fun symbol hs => ⟨fun hp => ?_, fun hp => hp.trans (List.prefix_append _ _)⟩
  rcases Nat.lt_or_ge text.length symbol.length with hlt | hle
  · have ht : text <+: symbol :=
      List.prefix_of_prefix_length_le (List.prefix_append _ _) hp (by omega)
    exact absurd hp (h symbol hs ht hlt)
  · exact List.prefix_of_prefix_length_le hp (List.prefix_append _ _) hle

theorem longest?_append_of_not_mayGrow (h : l.mayGrow text = false) :
    l.longest? (text ++ rest) = l.longest? text := by
  refine longest?_append fun symbol hs ht hlt _ => ?_
  rw [Bool.eq_false_iff, Ne, mayGrow_iff] at h
  exact h ⟨symbol, hs, ht, hlt⟩

theorem longest?_append_of_bounded (h : l.Bounded rest) :
    l.longest? (text ++ rest) = l.longest? text := by
  refine longest?_append fun symbol hs ht hlt hp => ?_
  obtain ⟨more, rfl⟩ := ht
  rw [List.prefix_append_right_inj] at hp
  obtain ⟨c, more, rfl⟩ : ∃ c more', more = c :: more' := by
    refine List.exists_cons_of_ne_nil ?_
    rintro rfl
    simp at hlt
  obtain ⟨after, rfl⟩ := hp
  exact h c rfl _ hs (by simp)

/-! ## Places without a symbol -/

theorem free_append {text' : List Char} (h : l.Free text (text' ++ rest)) (h' : l.Free text' rest) :
    l.Free (text ++ text') rest := by
  induction text with
  | nil => exact h'
  | cons c text ih =>
    obtain ⟨hc, ht⟩ := h
    exact ⟨by simpa using hc, ih ht⟩

theorem free_of_append {text' : List Char} (h : l.Free (text ++ text') rest) :
    l.Free text' rest := by
  induction text with
  | nil => exact h
  | cons c text ih => exact ih h.2

/-- A place that is free of symbols whatever follows neither has a symbol nor may grow into one. -/
theorem symbolAt?_eq_none_of_free (h : ∀ rest, l.longest? (text ++ rest) = none) :
    l.symbolAt? text = none ∧ l.mayGrow text = false := by
  constructor
  · rw [symbolAt?_eq_longest?]
    simpa using h []
  · rw [Bool.eq_false_iff, Ne, mayGrow_iff]
    rintro ⟨symbol, hs, ⟨more, rfl⟩, -⟩
    exact longest?_eq_none_iff.1 (h more) _ hs (List.prefix_refl _)

/-! ## The search -/

/-- Text that the search has passed: no symbol starts in the part `before` whatever follows, and the
part `growing` after it, if there is one, may grow into a symbol. -/
structure Passed (l : Lexicon) (before growing : List Char) : Prop where
  free : ∀ rest, l.Free before (growing ++ rest)
  grows : growing ≠ [] → l.mayGrow growing = true

/-- The search skips a part without symbols. -/
theorem findSymbol?_append {final : Bool} {before : List Char}
    (h : ∀ rest, l.Free before (text ++ rest)) :
    l.findSymbol? final (before ++ text) =
      (l.findSymbol? final text).map fun cut => { cut with before := before ++ cut.before } := by
  induction before with
  | nil => simp
  | cons c before ih =>
    have hc (rest : List Char) : l.longest? ((c :: before ++ text) ++ rest) = none := by
      simpa using (h rest).1
    obtain ⟨hn, hg⟩ := symbolAt?_eq_none_of_free hc
    rw [List.cons_append] at hn hg ⊢
    rw [findSymbol?, hn, hg, ih fun rest => (h rest).2, Bool.and_false, if_neg (by simp),
      Option.map_map]
    rfl

theorem passed_of_findSymbol? {final : Bool} (h : l.findSymbol? final text = none) :
    ∃ before growing, text = before ++ growing ∧ l.Passed before growing := by
  induction text with
  | nil => exact ⟨[], [], rfl, fun _ => trivial, by simp⟩
  | cons c text ih =>
    cases hg : l.mayGrow (c :: text) with
    | true => exact ⟨[], c :: text, rfl, fun _ => trivial, fun _ => hg⟩
    | false =>
      rw [findSymbol?, hg, Bool.and_false, if_neg (by simp)] at h
      split at h
      · cases h
      · rename_i hn
        obtain ⟨before, growing, rfl, hf, hgr⟩ := ih (by simpa using h)
        refine ⟨c :: before, growing, rfl, fun rest => ⟨?_, hf rest⟩, hgr⟩
        rw [List.cons_append, ← List.append_assoc, ← List.cons_append,
          longest?_append_of_not_mayGrow hg, ← symbolAt?_eq_longest?]
        exact hn

theorem free_of_findSymbol? (hb : l.Bounded rest) (h : l.findSymbol? true text = none) :
    l.Free text rest := by
  induction text with
  | nil => trivial
  | cons c text ih =>
    rw [findSymbol?] at h
    simp only [Bool.not_true, Bool.false_and, Bool.false_eq_true, if_false] at h
    split at h
    · cases h
    · rename_i hn
      refine ⟨?_, ih (by simpa using h)⟩
      rw [longest?_append_of_bounded hb, ← symbolAt?_eq_longest?]
      exact hn

/-- The symbol of a cut is the longest one at its place, and none starts before it. -/
theorem longest?_of_findSymbol? {final : Bool} {cut : Cut} (hb : final → l.Bounded rest)
    (h : l.findSymbol? final text = some cut) :
    l.Free cut.before (cut.symbol ++ cut.after ++ rest) ∧
      l.longest? (cut.symbol ++ cut.after ++ rest) = some cut.symbol := by
  induction text generalizing cut with
  | nil => cases h
  | cons c text ih =>
    rw [findSymbol?] at h
    split at h
    · cases h
    · rename_i hg
      have he : l.longest? (c :: text ++ rest) = l.symbolAt? (c :: text) := by
        rw [symbolAt?_eq_longest?]
        cases final with
        | true => exact longest?_append_of_bounded (hb rfl)
        | false => exact longest?_append_of_not_mayGrow (by simpa using hg)
      split at h
      · rename_i symbol hs
        cases h
        refine ⟨trivial, ?_⟩
        rw [append_drop_of_symbolAt? hs, he, hs]
      · rename_i hn
        obtain ⟨inner, hi, rfl⟩ := Option.map_eq_some_iff.1 h
        obtain ⟨hf, hl⟩ := ih hi
        refine ⟨⟨?_, hf⟩, hl⟩
        obtain ⟨ha, -⟩ := append_of_findSymbol? hi
        rw [← hn, ← he, ← ha]
        simp

/-! ## The window of the search -/

theorem byteSize_le_reach (h : symbol ∈ l.symbols) : byteSize symbol ≤ l.reach := by
  have hfold : ∀ sizes : List Nat, ∀ n ∈ sizes, n ≤ sizes.foldr max 0 := by
    intro sizes n hn
    induction sizes with
    | nil => cases hn
    | cons m sizes ih =>
      rw [List.foldr_cons]
      rcases List.mem_cons.1 hn with rfl | hn
      · exact Nat.le_max_left _ _
      · exact Nat.le_trans (ih hn) (Nat.le_max_right _ _)
  exact hfold _ _ (List.mem_map_of_mem h)

theorem length_le_byteSize (text : List Char) : text.length ≤ byteSize text := by
  induction text with
  | nil => exact Nat.le_refl 0
  | cons c text ih =>
    have := c.utf8Size_pos
    rw [List.length_cons, byteSize_cons]
    omega

/-- A text that may grow stays in the window with one more character. -/
theorem length_lt_reach (h : l.mayGrow text = true) : text.length < l.reach := by
  obtain ⟨symbol, hs, -, hlt⟩ := mayGrow_iff.1 h
  have h₁ := byteSize_le_reach hs
  have h₂ := length_le_byteSize symbol
  omega

theorem longest?_eq_none_of_reach (h : l.reach = 0) : l.longest? text = none := by
  rw [longest?_eq_none_iff]
  intro symbol hs hp
  have h₁ := byteSize_le_reach hs
  have h₂ := length_le_byteSize symbol
  obtain rfl : symbol = [] := List.length_eq_zero_iff.1 (by omega)
  exact l.symbols_ne_nil hs

theorem latest_of_single {bytes : Nat} {seen : List Char} (h : ∀ c ∈ text, c.utf8Size = 1) :
    latest bytes seen text = ((text.take bytes).reverse ++ seen, text.drop bytes) := by
  induction text generalizing bytes seen with
  | nil => simp [latest]
  | cons c text ih =>
    obtain ⟨hc, ht⟩ := List.forall_mem_cons.1 h
    rw [latest]
    by_cases hb : bytes = 0
    · simp [hb]
    · obtain ⟨n, rfl⟩ := Nat.exists_eq_succ_of_ne_zero hb
      rw [if_neg hb, ih ht, hc]
      simp

/-- Among single-byte characters, the window loses nothing: a part that is free of symbols whatever
follows need not be searched again. -/
theorem cutLatest?_eq {before late : List Char} (final : Bool) (hs : ∀ c ∈ text, c.utf8Size = 1)
    (ht : text.reverse = before ++ late) (hf : ∀ rest, l.Free before (late ++ rest))
    (hr : late.length ≤ l.reach) :
    l.cutLatest? final text =
      (l.findSymbol? final late).map fun cut => { cut with before := before ++ cut.before } := by
  rw [cutLatest?, latest_of_single hs, List.append_nil]
  have hlen : (text.take l.reach).reverse.length = min l.reach text.length := by simp
  have htl := congrArg List.length ht
  have happ : (text.drop l.reach).reverse ++ (text.take l.reach).reverse = before ++ late := by
    rw [← List.reverse_append, List.take_append_drop, ht]
  rw [List.length_reverse, List.length_append] at htl
  -- the window reaches back at least to where `late` begins
  obtain ⟨mid, hmid, hlate⟩ : ∃ mid, before = (text.drop l.reach).reverse ++ mid ∧
      (text.take l.reach).reverse = mid ++ late := by
    rcases List.append_eq_append_iff.1 happ with ⟨mid, h₁, h₂⟩ | ⟨mid, h₁, h₂⟩
    · exact ⟨mid, h₁, h₂⟩
    · have hm : mid = [] := by
        have := congrArg List.length h₂
        rw [List.length_append] at this
        exact List.length_eq_zero_iff.1 (by omega)
      subst hm
      exact ⟨[], by simpa using h₁.symm, by simpa using h₂.symm⟩
  rw [hlate, findSymbol?_append fun rest => free_of_append (hmid ▸ hf rest), Option.map_map]
  congr 1
  funext cut
  simp [hmid]

end WhereClause.Lexicon
