import WhereClause.Proofs.Token.Run

/-!
# Quoted text

Quoted text ends at the first quote that no backslash protects. A lexer in quoted text reads up to
there, whatever the lexicon, and goes on as after any other token.
-/

namespace WhereClause

/-! ## Quotations -/

/-- Quoted text up to its closing quote. -/
structure Quotation where
  /-- The text, without the backslashes that protect a quote. -/
  text : List Char
  /-- Offset just after the closing quote. -/
  stop : Nat
  /-- What follows. -/
  rest : List Char
deriving DecidableEq, Repr

namespace Quotation

/-- Adds characters at the beginning of the text. -/
def prepend (text : List Char) (q : Quotation) : Quotation :=
  { q with text := text ++ q.text }

/-- The token of a quotation that starts at `start`. -/
def token (q : Quotation) (quote : Char) (start : Nat) : Token :=
  ⟨.literal (.string (String.ofList q.text)) (some quote), ⟨start, q.stop⟩⟩

/-- Reads the text after an opening quote, up to the first closing quote without a backslash before
it or to the end. A backslash protects the next character, and is dropped if that is the quote. -/
def read (quote : Char) (offset : Nat) : List Char → Quotation
  | [] => ⟨[], offset, []⟩
  | c :: rest =>
    if c = quote then
      ⟨[], offset + c.utf8Size, rest⟩
    else if c = '\\' then
      match rest with
      | [] => ⟨[c], offset + c.utf8Size, []⟩
      | d :: rest =>
        (read quote (offset + c.utf8Size + d.utf8Size) rest).prepend
          (if d = quote then [d] else [c, d])
    else
      (read quote (offset + c.utf8Size) rest).prepend [c]

variable {quote c : Char}

theorem read_quote (quote : Char) (offset : Nat) (rest : List Char) :
    read quote offset (quote :: rest) = ⟨[], offset + quote.utf8Size, rest⟩ := by
  rw [read.eq_def]
  simp

theorem read_char (hq : c ≠ quote) (hb : c ≠ '\\') (offset : Nat) (rest : List Char) :
    read quote offset (c :: rest) = (read quote (offset + c.utf8Size) rest).prepend [c] := by
  rw [read.eq_def]
  simp [hq, hb]

theorem read_backslash (hq : quote ≠ '\\') (offset : Nat) (rest : List Char) :
    read quote offset ('\\' :: c :: rest) =
      (read quote (offset + 1 + c.utf8Size) rest).prepend
        (if c = quote then [c] else ['\\', c]) := by
  rw [read.eq_def]
  simp [hq.symm]
  rfl

theorem rest_read_suffix (quote : Char) (offset : Nat) (input : List Char) :
    (read quote offset input).rest <:+ input := by
  fun_induction read quote offset input with
  | case1 => exact List.suffix_refl _
  | case2 => exact List.suffix_cons _ _
  | case3 => exact List.suffix_cons _ _
  | case4 _ _ _ _ ih => exact ih.trans ((List.suffix_cons _ _).trans (List.suffix_cons _ _))
  | case5 _ _ _ _ _ ih => exact ih.trans (List.suffix_cons _ _)

end Quotation

/-! ## Reading quoted text -/

namespace Lexicon

variable {l : Lexicon}

/-- What has been read of quoted text and the input to come, as a quotation. A backslash that
protects the next character is read again. -/
def quotation (quote : Char) (offset : Nat) (text : List Char) (escaped : Bool)
    (input : List Char) : Quotation :=
  if escaped then
    (Quotation.read quote (offset - 1) ('\\' :: input)).prepend text.tail.reverse
  else
    (Quotation.read quote offset input).prepend text.reverse

/-- A lexer in quoted text reads up to its end. -/
theorem run_quoted {quote : Char} {start offset : Nat} {text : List Char} {escaped : Bool}
    (h : escaped → quote ≠ '\\' ∧ 0 < offset ∧ ∃ text', text = '\\' :: text')
    (input : List Char) :
    l.run ⟨.quoted quote start text escaped, offset⟩ input =
      (quotation quote offset text escaped input).token quote start ::
        l.scan (quotation quote offset text escaped input).stop
          (quotation quote offset text escaped input).rest := by
  have hone : '\\'.utf8Size = 1 := rfl
  induction input generalizing offset text escaped with
  | nil =>
    cases escaped with
    | true =>
      obtain ⟨hne, hpos, text', rfl⟩ := h rfl
      have hsub : offset - 1 + 1 = offset := by omega
      simp [quotation, Quotation.read, Quotation.prepend, Quotation.token, hne.symm, finish,
        quotedToken, hone, hsub]
    | false =>
      simp [quotation, Quotation.read, Quotation.prepend, Quotation.token, finish, quotedToken]
  | cons c input ih =>
    rw [run_cons, step, stepMode, stepQuoted]
    by_cases hc : c = quote
    · subst hc
      simp only [if_true]
      cases escaped with
      | true =>
        obtain ⟨hne, hpos, text', rfl⟩ := h rfl
        have hsub : offset - 1 + 1 = offset := by omega
        have hq : quotation c (offset + c.utf8Size) (c :: text') false input =
            quotation c offset ('\\' :: text') true (c :: input) := by
          simp [quotation, Quotation.read_backslash hne, Quotation.prepend, hsub]
        simp only [if_true, List.nil_append, List.drop_one, List.tail_cons]
        rw [ih (by simp), hq]
      | false =>
        simp [quotation, Quotation.read_quote, Quotation.prepend, Quotation.token, quotedToken,
          scan]
    · simp only [if_neg hc, List.nil_append]
      cases escaped with
      | true =>
        obtain ⟨hne, hpos, text', rfl⟩ := h rfl
        have hsub : offset - 1 + 1 = offset := by omega
        have hq : quotation quote (offset + c.utf8Size) (c :: '\\' :: text') false input =
            quotation quote offset ('\\' :: text') true (c :: input) := by
          simp [quotation, Quotation.read_backslash hne, Quotation.prepend, hsub, hc]
        simp only [Bool.not_true, Bool.and_false]
        rw [ih (by simp), hq]
      | false =>
        by_cases hb : c = '\\'
        · subst hb
          have hq : quotation quote (offset + '\\'.utf8Size) ('\\' :: text) true input =
              quotation quote offset text false ('\\' :: input) := by
            simp [quotation, hone]
          simp only [BEq.rfl, Bool.not_false, Bool.and_self]
          rw [ih fun _ => ⟨Ne.symm hc, by omega, text, rfl⟩, hq]
        · have hq : quotation quote (offset + c.utf8Size) (c :: text) false input =
              quotation quote offset text false (c :: input) := by
            simp [quotation, Quotation.read_char hc hb, Quotation.prepend]
          have hbc : (c == '\\') = false := by simpa using hb
          simp only [hbc, Bool.false_and]
          rw [ih (by simp), hq]

/-- Quoted text, from its opening quote on. -/
theorem scan_quote {quote : Char} (hq : l.isQuote quote = true) (offset : Nat)
    (input : List Char) :
    l.scan offset (quote :: input) =
      (Quotation.read quote (offset + quote.utf8Size) input).token quote offset ::
        l.scan (Quotation.read quote (offset + quote.utf8Size) input).stop
          (Quotation.read quote (offset + quote.utf8Size) input).rest := by
  have h : l.run ⟨.quoted quote offset [] false, offset + quote.utf8Size⟩ input = _ :=
    run_quoted (by simp) input
  rw [scan, run_cons, step, stepMode, if_pos hq, List.nil_append, h]
  simp [quotation, Quotation.prepend, Quotation.token]

end Lexicon

end WhereClause
