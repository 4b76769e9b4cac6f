import WhereClause.Operand
import WhereClause.Proofs.Token.Quotation

/-!
# Strings in quotes

A string is written in quotes that do not occur in it, if there are any, and otherwise in double
quotes with a backslash before each of its own. The backslashes of the string itself stay as they
are, so they may come to protect a quote. A string is read back from its text exactly if no odd run
of backslashes stands at its end or before a quote of the kind that it is written in.
-/

namespace WhereClause

/-! ## Runs of backslashes -/

namespace Text

/-- The number of backslashes at the end of a text. -/
def backslashes (text : List Char) : Nat :=
  (text.reverse.takeWhile (· = '\\')).length

/-- The text ends in a backslash that protects what follows: every backslash protects the next
character, unless it is protected itself. -/
def Protects (text : List Char) : Prop :=
  backslashes text % 2 = 1

instance (text : List Char) : Decidable (Protects text) :=
  inferInstanceAs (Decidable (_ = _))

theorem backslashes_cons (c : Char) (text : List Char) :
    backslashes (c :: text) =
      if backslashes text = text.length ∧ c = '\\' then text.length + 1 else backslashes text := by
  unfold backslashes
  rw [List.reverse_cons, List.takeWhile_append, List.length_reverse]
  by_cases h : (text.reverse.takeWhile (· = '\\')).length = text.length
  · by_cases hc : c = '\\' <;> simp [h, hc]
  · simp [h]

theorem backslashes_le (text : List Char) : backslashes text ≤ text.length := by
  have := (List.takeWhile_sublist (l := text.reverse) (p := fun c => decide (c = '\\'))).length_le
  rwa [List.length_reverse] at this

theorem not_protects_nil : ¬ Protects [] := by
  decide

theorem protects_singleton : Protects ['\\'] := by
  decide

theorem protects_cons_iff {c : Char} (hc : c ≠ '\\') (text : List Char) :
    Protects (c :: text) ↔ Protects text := by
  rw [Protects, backslashes_cons, if_neg fun h => hc h.2]
  rfl

theorem protects_pair_iff (c : Char) (text : List Char) :
    Protects ('\\' :: c :: text) ↔ Protects text := by
  have hle := backslashes_le text
  unfold Protects
  rw [backslashes_cons, backslashes_cons, List.length_cons]
  by_cases hc : backslashes text = text.length ∧ c = '\\'
  · rw [if_pos hc, if_pos ⟨rfl, rfl⟩, hc.1]
    omega
  · rw [if_neg hc, if_neg (by omega)]

end Text

/-! ## Quotes of a string -/

namespace Operand

/-- The quote that a string is written in. -/
def quoteOf (text : List Char) : Char :=
  (quotes.find? (!text.contains ·)).getD '"'

/-- The text with a backslash before each quote. -/
def escape (quote : Char) (text : List Char) : List Char :=
  text.flatMap fun c => if c = quote then ['\\', c] else [c]

/-- No quote of the text stands after a backslash that protects it. -/
def Exposed (quote : Char) (text : List Char) : Prop :=
  ∀ i < text.length, text[i]? = some quote → ¬ Text.Protects (text.take i)

instance (quote : Char) (text : List Char) : Decidable (Exposed quote text) :=
  inferInstanceAs (Decidable (∀ i < text.length, _))

/-- A string that is read back from its text: no odd run of backslashes stands at its end or before
a quote of the kind that it is written in. -/
def Quotable (text : List Char) : Prop :=
  ¬ Text.Protects text ∧ Exposed (quoteOf text) text

instance (text : List Char) : Decidable (Quotable text) :=
  inferInstanceAs (Decidable (_ ∧ _))

variable {quote c : Char} {text : List Char}

theorem escape_cons (quote c : Char) (text : List Char) :
    escape quote (c :: text) = (if c = quote then ['\\', c] else [c]) ++ escape quote text := by
  rw [escape, List.flatMap_cons]
  rfl

theorem escape_of_not_mem (h : quote ∉ text) : escape quote text = text := by
  induction text with
  | nil => rfl
  | cons c text ih =>
    simp only [List.mem_cons, not_or] at h
    rw [escape_cons, if_neg (Ne.symm h.1), ih h.2]
    rfl

theorem quoteOf_mem (text : List Char) : quoteOf text ∈ quotes := by
  unfold quoteOf
  cases h : quotes.find? (!text.contains ·) with
  | none => decide
  | some quote => exact List.mem_of_find?_eq_some h

/-- A quote that does not occur in a text is not protected in it, so only a string that has to be
written in double quotes of its own can go wrong. -/
theorem exposed_quoteOf_iff (text : List Char) :
    Exposed (quoteOf text) text ↔
      ((∀ quote ∈ quotes, quote ∈ text) → Exposed '"' text) := by
  unfold quoteOf
  cases h : quotes.find? (!text.contains ·) with
  | none =>
    have hall : ∀ quote ∈ quotes, quote ∈ text := by simpa using h
    exact ⟨fun he _ => he, fun he => he hall⟩
  | some quote =>
    have hn : quote ∉ text := by simpa using List.find?_some h
    refine ⟨fun _ hall => absurd (hall quote (List.mem_of_find?_eq_some h)) hn, fun _ i _ hi => ?_⟩
    exact absurd (List.mem_of_getElem? hi) hn

theorem writeString_eq (text : List Char) :
    writeString text = quoteOf text :: escape (quoteOf text) text ++ [quoteOf text] := by
  unfold writeString quoteOf
  cases h : quotes.find? (!text.contains ·) with
  | none =>
    simp only [Option.getD_none, escape]
    congr 3
    funext c
    by_cases hc : c = '"' <;> simp [hc]
  | some quote =>
    have hq : quote ∉ text := by simpa using List.find?_some h
    simp [escape_of_not_mem hq]

theorem exposed_cons_iff (hc : c ≠ '\\') (text : List Char) :
    Exposed quote (c :: text) ↔ Exposed quote text := by
  constructor
  · intro h i hi hq hp
    exact h (i + 1) (by simpa using hi) (by simpa using hq) ((Text.protects_cons_iff hc _).2 hp)
  · intro h i hi hq
    cases i with
    | zero => exact Text.not_protects_nil
    | succ i =>
      rw [List.take_succ_cons, Text.protects_cons_iff hc]
      exact h i (by simpa using hi) (by simpa using hq)

theorem exposed_pair_iff (hq : quote ≠ '\\') (text : List Char) :
    Exposed quote ('\\' :: c :: text) ↔ c ≠ quote ∧ Exposed quote text := by
  constructor
  · intro h
    refine ⟨?_, fun i hi hi' hp => ?_⟩
    · rintro rfl
      exact h 1 (by simp) rfl Text.protects_singleton
    · exact h (i + 2) (by simpa using hi) (by simpa using hi') ((Text.protects_pair_iff _ _).2 hp)
  · rintro ⟨hc, h⟩ i hi hi'
    match i with
    | 0 => exact Text.not_protects_nil
    | 1 =>
      rw [List.getElem?_cons_succ, List.getElem?_cons_zero] at hi'
      exact absurd (Option.some.inj hi') hc
    | i + 2 =>
      rw [List.take_succ_cons, List.take_succ_cons, Text.protects_pair_iff]
      exact h i (by simpa using hi) (by simpa using hi')

theorem exposed_nil (quote : Char) : Exposed quote [] := by
  intro i hi
  cases hi

/-! ## Reading a string back -/

/-- A string that is written in quotes is read back exactly if no backslash protects one of its
quotes or the closing one, and then reading stops after the closing quote. -/
theorem read_escape (hq : quote ≠ '\\') (offset : Nat) (text rest : List Char) :
    ((Quotation.read quote offset (escape quote text ++ quote :: rest)).text = text ↔
      ¬ Text.Protects text ∧ Exposed quote text) ∧
    (¬ Text.Protects text ∧ Exposed quote text →
      (Quotation.read quote offset (escape quote text ++ quote :: rest)).rest = rest) := by
  -- backslashes go in pairs with what they protect, so the induction takes one or two characters
  match text with
  | [] =>
    rw [escape, List.flatMap_nil, List.nil_append, Quotation.read_quote]
    exact ⟨iff_of_true rfl ⟨Text.not_protects_nil, exposed_nil quote⟩, fun _ => rfl⟩
  | c :: text =>
    by_cases hb : c = '\\'
    · rw [hb, escape_cons, if_neg hq.symm]
      match text with
      | [] =>
        refine ⟨iff_of_false ?_ fun h => h.1 Text.protects_singleton,
          fun h => absurd Text.protects_singleton h.1⟩
        rw [escape, List.flatMap_nil, List.append_nil, List.singleton_append,
          Quotation.read_backslash hq, if_pos rfl]
        simp [Quotation.prepend, hq]
      | d :: text =>
        rw [escape_cons, Text.protects_pair_iff, exposed_pair_iff hq]
        by_cases hd : d = quote
        · refine ⟨iff_of_false ?_ fun h => h.2.1 hd, fun h => absurd hd h.2.1⟩
          simp only [hd, if_true, List.cons_append, List.nil_append]
          rw [Quotation.read_backslash hq, if_neg hq.symm, Quotation.read_quote]
          simp [Quotation.prepend, hq.symm]
        · simp only [if_neg hd, List.cons_append, List.nil_append]
          rw [Quotation.read_backslash hq, if_neg hd]
          obtain ⟨ht, hr⟩ := read_escape hq (offset + 1 + d.utf8Size) text rest
          refine ⟨?_, fun h => hr ⟨h.1, h.2.2⟩⟩
          simpa [Quotation.prepend, hd] using ht
    · rw [escape_cons, Text.protects_cons_iff hb, exposed_cons_iff hb]
      by_cases hc : c = quote
      · simp only [hc, if_true, List.cons_append, List.nil_append]
        rw [Quotation.read_backslash hq, if_pos rfl]
        obtain ⟨ht, hr⟩ := read_escape hq (offset + 1 + quote.utf8Size) text rest
        refine ⟨?_, hr⟩
        simpa [Quotation.prepend] using ht
      · simp only [if_neg hc, List.cons_append, List.nil_append]
        rw [Quotation.read_char hc hb]
        obtain ⟨ht, hr⟩ := read_escape hq (offset + c.utf8Size) text rest
        refine ⟨?_, hr⟩
        simpa [Quotation.prepend] using ht

/-- A string in quotes, whatever follows it: one token, which holds the string exactly if it can be
read back. -/
theorem scan_writeString (offset : Nat) (text rest : List Char) :
    ∃ found span stop after,
      Lexicon.standard.scan offset (writeString text ++ rest) =
        ⟨.literal (.string (String.ofList found)) (some (quoteOf text)), span⟩ ::
          Lexicon.standard.scan stop after ∧
      (found = text ↔ Quotable text) ∧ (Quotable text → after = rest) := by
  have hm := quoteOf_mem text
  have hq : Lexicon.standard.isQuote (quoteOf text) = true :=
    List.contains_iff_mem.2 hm
  have hb : quoteOf text ≠ '\\' := by
    intro h
    rw [h] at hm
    revert hm
    decide
  obtain ⟨ht, hr⟩ := read_escape hb (offset + (quoteOf text).utf8Size) text rest
  rw [writeString_eq, List.append_assoc, List.cons_append, Lexicon.scan_quote hq]
  exact ⟨_, _, _, _, rfl, ht, hr⟩

/-- The text of a string is a single token that holds the string exactly if no odd run of
backslashes stands at the end of the string or, when all kinds of quotes occur in it, directly
before a double quote. -/
theorem tokenize_render_string_iff (text : String) :
    (∃ quote span, Lexicon.standard.tokenize (literal (.string text)).render =
        [⟨.literal (.string text) (some quote), span⟩]) ↔
      ¬ Text.Protects text.toList ∧
        ((∀ quote ∈ quotes, quote ∈ text.toList) → Exposed '"' text.toList) := by
  obtain ⟨found, span, stop, after, hscan, hfound, hafter⟩ := scan_writeString 0 text.toList []
  have htokens : Lexicon.standard.tokenize (literal (.string text)).render =
      ⟨.literal (.string (String.ofList found)) (some (quoteOf text.toList)), span⟩ ::
        Lexicon.standard.scan stop after := by
    rw [Lexicon.tokenize_eq_scan, render, String.toList_ofList, ← hscan, List.append_nil]
    rfl
  have hquotable := exposed_quoteOf_iff text.toList
  constructor
  · rintro ⟨quote, place, heq⟩
    rw [htokens] at heq
    have hvalue : String.ofList found = text := by
      injection heq with hhead
      injection hhead with hkind
      injection hkind with hvalue
      injection hvalue
    obtain ⟨hend, hinside⟩ := hfound.1 (by rw [← hvalue, String.toList_ofList])
    exact ⟨hend, hquotable.1 hinside⟩
  · rintro ⟨hend, hinside⟩
    have hq : Quotable text.toList := ⟨hend, hquotable.2 hinside⟩
    refine ⟨quoteOf text.toList, span, ?_⟩
    rw [htokens, hafter hq, Lexicon.scan_nil, hfound.2 hq, String.ofList_toList]

end Operand

end WhereClause
