import WhereClause.Proofs.Token.Longest
import WhereClause.Proofs.Token.Searches

/-!
# How far a search reaches

A search looks only at the latest characters held, as many as take the bytes of the longest symbol.
It gives the answer of a search in all characters held exactly if no symbol starts before those it
looks at.

When a character comes, no symbol starts among the characters held, unless it was held back because
it may grow into a longer one. The search at the character sees this symbol if there are fewer bytes
after the first character of the symbol than the longest symbol has. So it is for single-byte
characters; but a character of several bytes can push a symbol that was held back out of reach, and
then it is never found.
-/

namespace WhereClause.Lexicon

variable (l : Lexicon)

/-- The answer to a search, from all characters held. -/
def fullAnswer (search : Search) : Option Cut :=
  l.findSymbol? search.final search.text.reverse

/-! ## One search -/

/-- The characters that a search looks at, in reading order. -/
def seen (text : List Char) : List Char :=
  (latest l.reach [] text).1

/-- The characters before those that a search looks at, in reading order. -/
def unseen (text : List Char) : List Char :=
  (latest l.reach [] text).2.reverse

variable {l} {text before late rest : List Char} {final : Bool} {c : Char}

variable (l) in
theorem unseen_append_seen (text : List Char) : l.unseen text ++ l.seen text = text.reverse := by
  have h := latest_append l.reach [] text
  rwa [List.append_nil] at h

theorem le_byteSize_latest {bytes : Nat} {seen : List Char}
    (h : (latest bytes seen text).2 ≠ []) :
    bytes + byteSize seen ≤ byteSize (latest bytes seen text).1 := by
  fun_induction latest bytes seen text with
  | case1 => exact absurd rfl h
  | case2 => simp
  | case3 bytes seen c earlier hb ih =>
    have := ih h
    rw [byteSize_cons] at this
    omega

/-- Unless a search looks at all characters, it looks at as many as a symbol can have. -/
theorem reach_le_byteSize_seen (h : l.unseen text ≠ []) : l.reach ≤ byteSize (l.seen text) := by
  have hlatest : l.reach + byteSize [] ≤ byteSize (l.seen text) :=
    le_byteSize_latest (mt List.reverse_eq_nil_iff.2 h)
  exact hlatest

theorem byteSize_lt_of_mayGrow (h : l.mayGrow text = true) : byteSize text < l.reach := by
  obtain ⟨symbol, hs, ⟨more, rfl⟩, hlt⟩ := mayGrow_iff.1 h
  have hreach := byteSize_le_reach hs
  have hmore := length_le_byteSize more
  rw [byteSize_append] at hreach
  rw [List.length_append] at hlt
  omega

theorem mayGrow_append_eq_false (hr : l.reach ≤ byteSize text) (before : List Char) :
    l.mayGrow (before ++ text) = false := by
  by_contra hg
  have hlt := byteSize_lt_of_mayGrow (Bool.eq_true_of_not_eq_false hg)
  rw [byteSize_append] at hlt
  omega

theorem byteSize_le_of_suffix (h : late <:+ text) : byteSize late ≤ byteSize text := by
  obtain ⟨before, rfl⟩ := h
  rw [byteSize_append]
  omega

/-- No symbol starts at a character of the text exactly if none starts a non-empty end of it. -/
theorem free_iff : l.Free text rest ↔ ∀ q, q <:+ text → q ≠ [] → l.longest? (q ++ rest) = none := by
  induction text with
  | nil =>
    refine iff_of_true trivial fun q hq hne => ?_
    exact absurd (List.suffix_nil.1 hq) hne
  | cons c text ih =>
    rw [Free, ih]
    constructor
    · rintro ⟨hc, ht⟩ q hq hne
      rcases List.suffix_cons_iff.1 hq with rfl | hq
      · exact hc
      · exact ht q hq hne
    · intro h
      refine ⟨h _ List.suffix_rfl (by simp), fun q hq hne => ?_⟩
      exact h q (hq.trans (List.suffix_cons c text)) hne

/-- Before text that is as long as a symbol can be, the search skips places without symbols. -/
theorem findSymbol?_append_of_free (hr : l.reach ≤ byteSize text) (hf : l.Free before text) :
    l.findSymbol? final (before ++ text) =
      (l.findSymbol? final text).map fun cut => { cut with before := before ++ cut.before } := by
  induction before with
  | nil => simp
  | cons c before ih =>
    obtain ⟨hc, hf⟩ := hf
    have hg := mayGrow_append_eq_false hr (c :: before)
    rw [← symbolAt?_eq_longest?] at hc
    rw [List.cons_append] at hc hg ⊢
    rw [findSymbol?, hc, hg, ih hf, Bool.and_false, if_neg (by simp), Option.map_map]
    rfl

/-- Before text that is as long as a symbol can be, the search stops at the first symbol. -/
theorem exists_findSymbol?_of_not_free (final : Bool) (hr : l.reach ≤ byteSize text)
    (hf : ¬ l.Free before text) :
    ∃ cut, l.findSymbol? final (before ++ text) = some cut ∧ cut.before.length < before.length := by
  induction before with
  | nil => exact absurd trivial hf
  | cons c before ih =>
    have hg := mayGrow_append_eq_false hr (c :: before)
    rw [List.cons_append] at hg ⊢
    rw [findSymbol?, hg, Bool.and_false, if_neg (by simp)]
    cases hc : l.symbolAt? (c :: (before ++ text)) with
    | some symbol => exact ⟨_, rfl, by simp⟩
    | none =>
      rw [symbolAt?_eq_longest?] at hc
      obtain ⟨cut, hcut, hlt⟩ := ih fun h => hf ⟨hc, h⟩
      exact ⟨_, by rw [hcut]; rfl, by simpa using hlt⟩

/-- A search finds what a search in all characters finds, exactly if no symbol starts before the
characters it looks at. -/
theorem answer_eq_fullAnswer_iff (search : Search) : l.answer search = l.fullAnswer search ↔
    l.Free (l.unseen search.text) (l.seen search.text) := by
  obtain ⟨final, text⟩ := search
  have hanswer : l.answer ⟨final, text⟩ = (l.findSymbol? final (l.seen text)).map fun cut =>
      { cut with before := l.unseen text ++ cut.before } := rfl
  have hfull : l.fullAnswer ⟨final, text⟩ =
      l.findSymbol? final (l.unseen text ++ l.seen text) := by
    rw [unseen_append_seen]
    rfl
  rw [hanswer, hfull]
  by_cases hu : l.unseen text = []
  · simp [hu, Free]
  · have hr := reach_le_byteSize_seen hu
    constructor
    · intro heq
      by_contra hf
      obtain ⟨cut, hcut, hlt⟩ := exists_findSymbol?_of_not_free final hr hf
      rw [hcut] at heq
      obtain ⟨inner, -, rfl⟩ := Option.map_eq_some_iff.1 heq
      simp only [List.length_append] at hlt
      omega
    · intro hf
      exact (findSymbol?_append_of_free hr hf).symm

/-! ## Characters held -/

theorem longest?_nil : l.longest? [] = none := by
  rw [longest?_eq_none_iff]
  intro symbol hs hp
  exact l.symbols_ne_nil (List.prefix_nil.1 hp ▸ hs)

theorem longest?_append_ne_none {q : List Char} (h : l.longest? q ≠ none) (rest : List Char) :
    l.longest? (q ++ rest) ≠ none := by
  intro hn
  refine h (longest?_eq_none_iff.2 fun symbol hs hp => ?_)
  exact longest?_eq_none_iff.1 hn symbol hs (hp.trans (List.prefix_append q rest))

theorem byteSize_tail_lt {q : List Char} (h : q ≠ []) : byteSize q.tail < byteSize q := by
  obtain ⟨c, q, rfl⟩ := List.exists_cons_of_ne_nil h
  have := c.utf8Size_pos
  rw [List.tail_cons, byteSize_cons]
  omega

/-- An end of the text at which a symbol starts lies after the part without symbols. -/
theorem suffix_of_longest? {q : List Char} (hf : l.Free before late) (hq : q <:+ before ++ late)
    (hl : l.longest? q ≠ none) : q <:+ late := by
  rcases List.suffix_or_suffix_of_suffix hq (List.suffix_append before late) with h | ⟨b, rfl⟩
  · exact h
  · by_cases hb : b = []
    · rw [hb]
      exact List.suffix_rfl
    · exact absurd (free_iff.1 hf b (List.suffix_append_self_iff.1 hq) hb) hl

/-- A search that ends with the text sees every symbol that starts in it. -/
def Near (l : Lexicon) (text : List Char) : Prop :=
  ∀ q, q <:+ text → l.longest? q ≠ none → byteSize q.tail < l.reach

/-- No symbol starts in the part `before` of the characters held, whatever follows, and a search
sees every symbol that starts in the part `late` after it. -/
structure InView (l : Lexicon) (text before late : List Char) : Prop where
  text : text.reverse = before ++ late
  free : ∀ rest, l.Free before (late ++ rest)
  near : l.Near late

theorem InView.answer_eq (h : l.InView text before late) (final : Bool) :
    l.answer ⟨final, text⟩ = l.fullAnswer ⟨final, text⟩ := by
  rw [answer_eq_fullAnswer_iff, free_iff]
  intro q hq hne
  by_contra hl
  have hsuffix : q ++ l.seen text <:+ before ++ late := by
    rw [← h.text, ← l.unseen_append_seen text]
    exact List.suffix_append_self_iff.2 hq
  have hfree : l.Free before late := by simpa using h.free []
  have hnear := h.near _ (suffix_of_longest? hfree hsuffix hl) hl
  have hunseen : l.unseen text ≠ [] := by
    rintro hu
    rw [hu] at hq
    exact hne (List.suffix_nil.1 hq)
  have hreach := reach_le_byteSize_seen hunseen
  rw [List.tail_append_of_ne_nil hne, byteSize_append] at hnear
  omega

/-- Cutting asks only searches that see enough, and leaves nothing to be cut. -/
theorem InView.split (h : l.InView text before late) (final : Bool) (start : Nat) :
    (∀ search ∈ l.splitSearches final text, l.answer search = l.fullAnswer search) ∧
      ∃ before late, l.InView (l.split final ⟨start, text⟩).2.text before late ∧
        l.findSymbol? final late = none := by
  induction text using splitSearches.induct l final generalizing start before late with
  | case1 text ih =>
    have hself := h.answer_eq final
    have hcut : l.cutLatest? final text = (l.findSymbol? final late).map fun cut =>
        { cut with before := before ++ cut.before } := by
      rw [← findSymbol?_append h.free, ← h.text]
      exact hself
    cases hf : l.findSymbol? final late with
    | none =>
      rw [hf, Option.map_none] at hcut
      have hsplit : l.split final ⟨start, text⟩ = _ := split_of_none hcut
      rw [splitSearches_of_none hcut, hsplit]
      exact ⟨List.forall_mem_singleton.2 hself, before, late, h, hf⟩
    | some inner =>
      rw [hf, Option.map_some] at hcut
      obtain ⟨ha, -⟩ := append_of_findSymbol? hf
      have hsuffix : inner.after <:+ late := ⟨_, ha⟩
      have hafter : l.InView inner.after.reverse [] inner.after :=
        ⟨by simp, fun _ => trivial, fun q hq hl => h.near q (hq.trans hsuffix) hl⟩
      have hsplit : l.split final ⟨start, text⟩ = _ := split_of_some hcut
      obtain ⟨hrest, hleft⟩ := ih _ hcut hafter
        (start + byteSize (before ++ inner.before) + byteSize inner.symbol)
      rw [splitSearches_of_some hcut, hsplit]
      exact ⟨List.forall_mem_cons.2 ⟨hself, hrest⟩, hleft⟩

/-- Characters held before another one comes: a symbol starts only in text that may yet grow into a
longer one. -/
def Idle (l : Lexicon) (text : List Char) : Prop :=
  ∃ before growing, text.reverse = before ++ growing ∧ l.Passed before growing

theorem InView.idle (h : l.InView text before late) (hn : l.findSymbol? final late = none) :
    l.Idle text := by
  obtain ⟨mid, growing, rfl, hf, hg⟩ := passed_of_findSymbol? hn
  refine ⟨before ++ mid, growing, by rw [h.text, List.append_assoc], fun rest => ?_, hg⟩
  refine free_append ?_ (hf rest)
  have hfree := h.free rest
  rwa [List.append_assoc] at hfree

/-- A symbol that was held back has fewer bytes to its end than the longest symbol. -/
theorem Idle.byteSize_lt {q : List Char} (h : l.Idle text) (hq : q <:+ text.reverse)
    (hl : l.longest? q ≠ none) : byteSize q < l.reach := by
  obtain ⟨before, growing, ht, hp⟩ := h
  have hfree : l.Free before growing := by simpa using hp.free []
  have hsuffix : q <:+ growing := suffix_of_longest? hfree (ht ▸ hq) hl
  have hg : growing ≠ [] := by
    rintro rfl
    exact absurd (List.suffix_nil.1 hsuffix ▸ longest?_nil) hl
  have h₁ := byteSize_le_of_suffix hsuffix
  have h₂ := byteSize_lt_of_mayGrow (hp.grows hg)
  omega

/-- What is held is all in view when a word ends. -/
theorem Idle.inView (h : l.Idle text) : ∃ before late, l.InView text before late := by
  have hidle := h
  obtain ⟨before, growing, ht, hp⟩ := h
  refine ⟨before, growing, ht, hp.free, fun q hq hl => ?_⟩
  have hlt := hidle.byteSize_lt (ht ▸ hq.trans (List.suffix_append before growing)) hl
  exact (byteSize_le_of_suffix (List.tail_suffix q)).trans_lt hlt

/-- A search that ends with `c` sees every symbol that starts in the characters held before it. -/
def Reaches (l : Lexicon) (c : Char) (text : List Char) : Prop :=
  ∀ q, q <:+ text.reverse → l.longest? q ≠ none → byteSize q.tail + c.utf8Size < l.reach

theorem Idle.inView_push (h : l.Idle text) (hc : l.Reaches c text) :
    ∃ before late, l.InView (c :: text) before late := by
  obtain ⟨before, growing, ht, hp⟩ := h
  refine ⟨before, growing ++ [c], by rw [List.reverse_cons, ht, List.append_assoc],
    fun rest => ?_, fun q' hq' hl => ?_⟩
  · rw [List.append_assoc]
    exact hp.free _
  · rcases List.suffix_concat_iff.1 hq' with rfl | ⟨q, rfl, hq⟩
    · exact absurd longest?_nil hl
    obtain ⟨symbol, hs⟩ := Option.ne_none_iff_exists'.1 hl
    obtain ⟨hmem, hprefix, -⟩ := longest?_eq_some_iff.1 hs
    rcases List.prefix_concat_iff.1 hprefix with rfl | hprefix
    · have h₁ := byteSize_le_reach hmem
      have h₂ : byteSize (q ++ [c]).tail < byteSize (q ++ [c]) := byteSize_tail_lt (by simp)
      omega
    · have hlq : l.longest? q ≠ none := fun hn => longest?_eq_none_iff.1 hn symbol hmem hprefix
      have hne : q ≠ [] := by
        rintro rfl
        exact hlq longest?_nil
      have hreach := hc q (ht ▸ hq.trans (List.suffix_append before growing)) hlq
      rw [List.tail_append_of_ne_nil hne, byteSize_append]
      simpa using hreach

/-! ## States of the lexer -/

/-- If a word is being read, then the characters held are idle. -/
def IdleIn (l : Lexicon) : Lexer.Mode → Prop
  | .word held => l.Idle held.text
  | _ => True

/-- If the character is one of a word, then the search at it sees every symbol held back. -/
def ReachesFrom (l : Lexicon) (c : Char) : Lexer.Mode → Prop
  | .word held => l.isDelimiter c = false → l.isQuote c = false → l.Reaches c held.text
  | _ => True

theorem idle_nil : l.Idle [] :=
  ⟨[], [], rfl, fun _ => trivial, by simp⟩

/-- Where nothing is held back, nothing can get out of reach. -/
theorem reaches_of_free (c : Char) (hf : l.Free text.reverse []) : l.Reaches c text := by
  intro q hq hl
  have hnil : q <:+ [] := suffix_of_longest? hf (by simpa using hq) hl
  exact absurd (List.suffix_nil.1 hnil ▸ longest?_nil) hl

theorem answers_push {held : Held} (h : l.Idle held.text) (hc : l.Reaches c held.text) :
    (∀ search ∈ l.splitSearches false (held.push c).text,
      l.answer search = l.fullAnswer search) ∧
      l.Idle (l.split false (held.push c)).2.text := by
  obtain ⟨before, late, hv⟩ := h.inView_push hc
  obtain ⟨hanswers, _, _, hv', hn⟩ := hv.split false held.start
  exact ⟨hanswers, hv'.idle hn⟩

theorem answers_stepWord {held : Held} (offset : Nat) (h : l.Idle held.text)
    (hc : l.isDelimiter c = false → l.isQuote c = false → l.Reaches c held.text) :
    (∀ search ∈ l.wordSearches held c, l.answer search = l.fullAnswer search) ∧
      l.IdleIn (l.stepWord offset held c).2 := by
  obtain ⟨before, late, hv⟩ := h.inView
  obtain ⟨hend, before', late', hv', hn⟩ := hv.split true held.start
  rw [wordSearches, stepWord]
  by_cases hd : l.isDelimiter c = true
  · rw [if_pos hd, if_pos hd]
    exact ⟨hend, trivial⟩
  rw [if_neg hd, if_neg hd]
  by_cases hq : l.isQuote c = true
  · rw [if_pos hq, if_pos hq]
    dsimp only
    by_cases he : (l.split true held).2.text.isEmpty = true
    · rw [if_pos he, if_pos he, List.append_nil]
      exact ⟨hend, trivial⟩
    · -- the quote joins a word out of which all symbols have been cut
      have hfree : l.Free (l.split true held).2.text.reverse [] := by
        rw [hv'.text]
        exact free_append (hv'.free []) (free_of_findSymbol? bounded_nil hn)
      have hpush := answers_push (hv'.idle hn) (reaches_of_free c hfree)
      rw [if_neg he, if_neg he]
      exact ⟨List.forall_mem_append.2 ⟨hend, hpush.1⟩, hpush.2⟩
  · rw [if_neg hq, if_neg hq]
    obtain ⟨hanswers, hidle⟩ := answers_push h (hc (by simpa using hd) (by simpa using hq))
    refine ⟨hanswers, ?_⟩
    dsimp only
    split
    · trivial
    · exact hidle

theorem answers_step {lexer : Lexer} (h : l.IdleIn lexer.mode) (hc : l.ReachesFrom c lexer.mode) :
    (∀ search ∈ l.stepSearches lexer c, l.answer search = l.fullAnswer search) ∧
      l.IdleIn (l.step lexer c).2.mode := by
  obtain ⟨mode, offset⟩ := lexer
  cases mode with
  | neutral =>
    rw [step, stepSearches, stepMode]
    by_cases hq : l.isQuote c = true
    · rw [if_pos hq, if_pos hq]
      exact ⟨List.forall_mem_nil _, trivial⟩
    rw [if_neg hq, if_neg hq]
    by_cases hd : l.isDelimiter c = true
    · rw [if_pos hd, if_pos hd]
      exact ⟨List.forall_mem_nil _, trivial⟩
    · rw [if_neg hd, if_neg hd]
      exact answers_stepWord offset idle_nil fun _ _ => reaches_of_free c trivial
  | word held => exact answers_stepWord offset h hc
  | quoted quote start text escaped =>
    refine ⟨List.forall_mem_nil _, ?_⟩
    simp only [step, stepMode, stepQuoted]
    split
    · split <;> trivial
    · trivial

/-! ## All input -/

/-- The searches at all characters of the clause see the symbols that were held back before. -/
def InReach (l : Lexicon) (clause : List Char) : Prop :=
  ∀ u c v, clause = u ++ c :: v → l.ReachesFrom c (l.feed {} u).2.mode

theorem answers_feed {lexer : Lexer} (h : l.IdleIn lexer.mode)
    (hc : ∀ u c v, text = u ++ c :: v → l.ReachesFrom c (l.feed lexer u).2.mode) :
    (∀ search ∈ l.feedSearches lexer text, l.answer search = l.fullAnswer search) ∧
      l.IdleIn (l.feed lexer text).2.mode := by
  induction text generalizing lexer with
  | nil => exact ⟨List.forall_mem_nil _, h⟩
  | cons c rest ih =>
    obtain ⟨hstep, hidle⟩ := answers_step h (hc [] c rest rfl)
    obtain ⟨hrest, hend⟩ := ih hidle fun u d v hs => hc (c :: u) d v (by rw [hs]; rfl)
    exact ⟨List.forall_mem_append.2 ⟨hstep, hrest⟩, hend⟩

theorem answers_finish {lexer : Lexer} (h : l.IdleIn lexer.mode) :
    ∀ search ∈ l.finishSearches lexer, l.answer search = l.fullAnswer search := by
  obtain ⟨mode, offset⟩ := lexer
  cases mode with
  | neutral => exact List.forall_mem_nil _
  | word held =>
    obtain ⟨before, late, hv⟩ := Idle.inView h
    exact (hv.split true held.start).1
  | quoted quote start text escaped => exact List.forall_mem_nil _

/-- A search looks at no more characters than it must. -/
theorem latest_suffix {bytes : Nat} {seen q : List Char} (hq : q <:+ text.reverse)
    (hb : bytes ≤ byteSize q) : (latest bytes seen text).1 <:+ q ++ seen := by
  fun_induction latest bytes seen text generalizing q with
  | case1 | case2 => exact List.suffix_append q _
  | case3 bytes seen c earlier hne ih =>
    rw [List.reverse_cons] at hq
    rcases List.suffix_concat_iff.1 hq with rfl | ⟨r, rfl, hr⟩
    · rw [byteSize_nil] at hb
      omega
    · rw [byteSize_append, byteSize_cons, byteSize_nil] at hb
      have hbytes : bytes - c.utf8Size ≤ byteSize r := by omega
      rw [List.append_assoc, List.singleton_append]
      exact ih hr hbytes

/-- A search that gives the answer of a full search sees every symbol held back. -/
theorem reaches_of_answer_eq (h : l.answer ⟨final, c :: text⟩ = l.fullAnswer ⟨final, c :: text⟩) :
    l.Reaches c text := by
  rw [answer_eq_fullAnswer_iff] at h
  intro q hq hl
  by_contra hlt
  have hne : q ≠ [] := by
    rintro rfl
    exact hl longest?_nil
  have hsuffix : q ++ [c] <:+ (c :: text).reverse := by
    rw [List.reverse_cons]
    exact List.suffix_append_self_iff.2 hq
  -- the search looks at no character as early as the first one of the symbol
  obtain ⟨x, hx⟩ : l.seen (c :: text) <:+ q.tail ++ [c] := by
    have htail : q.tail ++ [c] <:+ (c :: text).reverse :=
      (List.suffix_append_self_iff.2 (List.tail_suffix q)).trans hsuffix
    have hseen : l.seen (c :: text) <:+ q.tail ++ [c] ++ [] :=
      latest_suffix htail (by simpa using hlt)
    rwa [List.append_nil] at hseen
  obtain ⟨d, q, rfl⟩ := List.exists_cons_of_ne_nil hne
  have hq' : d :: q ++ [c] = (d :: x) ++ l.seen (c :: text) := by
    rw [List.cons_append, List.cons_append, hx]
    rfl
  rw [hq', ← l.unseen_append_seen (c :: text), List.suffix_append_self_iff] at hsuffix
  have hnone := free_iff.1 h _ hsuffix (by simp)
  rw [← hq'] at hnone
  exact longest?_append_ne_none hl [c] hnone

theorem mem_searches {clause : String} {u v : List Char} {held : Held}
    (hs : clause.toList = u ++ c :: v) (hu : (l.feed {} u).2.mode = .word held)
    (hd : l.isDelimiter c = false) (hq : l.isQuote c = false) :
    ⟨false, c :: held.text⟩ ∈ l.searches clause := by
  have hstep : ⟨false, c :: held.text⟩ ∈ l.stepSearches (l.feed {} u).2 c := by
    rw [stepSearches, hu]
    simp only [wordSearches, hd, hq]
    exact mem_splitSearches_self
  rw [searches, hs, feedSearches_append]
  refine List.mem_append_left _ (List.mem_append_right _ (List.mem_append_left _ hstep))

theorem Idle.reaches_of_single (h : l.Idle text) (hc : c.utf8Size = 1) : l.Reaches c text := by
  intro q hq hl
  have hne : q ≠ [] := by
    rintro rfl
    exact hl longest?_nil
  have h₁ := h.byteSize_lt hq hl
  have h₂ := byteSize_tail_lt hne
  omega

theorem reachesFrom_of_single {mode : Lexer.Mode} (h : l.IdleIn mode) (hc : c.utf8Size = 1) :
    l.ReachesFrom c mode := by
  cases mode with
  | neutral => trivial
  | word held => exact fun _ _ => Idle.reaches_of_single h hc
  | quoted quote start text escaped => trivial

theorem idleIn_feed_of_single {lexer : Lexer} (h : l.IdleIn lexer.mode)
    (ht : ∀ c ∈ text, c.utf8Size = 1) : l.IdleIn (l.feed lexer text).2.mode := by
  induction text generalizing lexer with
  | nil => exact h
  | cons c rest ih =>
    obtain ⟨hc, ht⟩ := List.forall_mem_cons.1 ht
    exact ih (answers_step h (reachesFrom_of_single h hc)).2 ht

/-- In reading a clause, all searches give the answers of full searches exactly if, at each
character of a word, the symbols that were held back are in reach; so it is if all characters are
single bytes. -/
theorem answers_eq_iff_inReach (l : Lexicon) (clause : String) :
    ((∀ search ∈ l.searches clause, l.answer search = l.fullAnswer search) ↔
      l.InReach clause.toList) ∧
    ((∀ c ∈ clause.toList, c.utf8Size = 1) → l.InReach clause.toList) := by
  refine ⟨⟨fun h u c v hs => ?_, fun h => ?_⟩, fun h u c v hs => ?_⟩
  · unfold ReachesFrom
    split
    · rename_i held hu
      exact fun hd hq => reaches_of_answer_eq (h _ (mem_searches hs hu hd hq))
    · trivial
  · have hstart : l.IdleIn ({} : Lexer).mode := trivial
    obtain ⟨hfeed, hidle⟩ := answers_feed hstart h
    exact List.forall_mem_append.2 ⟨hfeed, answers_finish hidle⟩
  · rw [hs] at h
    obtain ⟨hu, hv⟩ := List.forall_mem_append.1 h
    exact reachesFrom_of_single (idleIn_feed_of_single trivial hu) (List.forall_mem_cons.1 hv).1

/-- The symbol `<` is held back, since it may become `<=`, and is found when the `b` has come. -/
theorem answers_eq_of_held_back :
    ⟨false, ['b', '<', 'a']⟩ ∈ standard.searches "a<b" ∧
      ∀ search ∈ standard.searches "a<b", standard.answer search = standard.fullAnswer search := by
  obtain ⟨hiff, hsingle⟩ := answers_eq_iff_inReach standard "a<b"
  exact ⟨by decide +kernel, hiff.2 (hsingle (by decide))⟩

/-- After an `é`, which has two bytes, the symbol that was held back is not found any more. -/
theorem answer_ne_fullAnswer : ⟨false, ['é', '<', 'a']⟩ ∈ standard.searches "a<é" ∧
    standard.answer ⟨false, ['é', '<', 'a']⟩ = none ∧
    standard.fullAnswer ⟨false, ['é', '<', 'a']⟩ = some ⟨['a'], ['<'], ['é']⟩ ∧
    (standard.tokenize "a<é").map Token.render = ["a<é"] := by
  decide +kernel

end WhereClause.Lexicon
