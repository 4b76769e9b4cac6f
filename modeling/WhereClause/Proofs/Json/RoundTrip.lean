import Mathlib.Tactic.SplitIfs
import WhereClause.Json.Printer
import WhereClause.Json.Reader

/-!
# Reading JSON that was written

A document is read back from its own text. What is read in front of other text is the same, as long
as that text begins with what can follow a document: a comma or a closing bracket. So arrays and
objects are read item by item.

The reader counts down with each document and with each item; twice the length of what is written is
enough.
-/

namespace WhereClause.Json

open Text (joinWith)

/-! ## What may follow a document -/

/-- The text is empty or begins with a comma or a closing bracket. -/
def Ended (rest : List Char) : Prop :=
  ∀ c ∈ rest.head?, c = ',' ∨ c = ']' ∨ c = '}'

variable {cs rest : List Char} {c : Char}

theorem ended_nil : Ended [] :=
  nofun

theorem ended_cons (h : c = ',' ∨ c = ']' ∨ c = '}') : Ended (c :: rest) := by
  intro d hd
  cases hd
  exact h

theorem skipBlanks_cons (h : isBlank c = false) : skipBlanks (c :: rest) = c :: rest := by
  simp [skipBlanks, h]

/-! ## Numbers -/

theorem isBlank_of_isNumeral (h : isNumeral c = true) : isBlank c = false := by
  simp only [isBlank, Bool.or_eq_false_iff, beq_eq_false_iff_ne]
  refine ⟨⟨⟨?_, ?_⟩, ?_⟩, ?_⟩ <;> rintro rfl <;> exact absurd h (by decide)

namespace Number

theorem isNumeral_of_mem (value : Number) (h : c ∈ value.chars) : isNumeral c = true := by
  have hall := (Bool.and_eq_true_iff.1 value.valid).1
  exact List.all_eq_true.1 hall c h

/-- A number begins with a numeral. -/
theorem chars_eq_cons (value : Number) :
    ∃ c cs, value.chars = c :: cs ∧ isNumeral c = true := by
  obtain ⟨_ | ⟨c, cs⟩, hvalid⟩ := value
  · exact absurd hvalid (by decide)
  · exact ⟨c, cs, rfl, isNumeral_of_mem ⟨c :: cs, hvalid⟩ List.mem_cons_self⟩

end Number

/-- A number is read up to what ends it. -/
theorem takeNumber?_append (value : Number) (h : Ended rest) :
    takeNumber? (value.chars ++ rest) = some (value, rest) := by
  have hrest : rest.takeWhile isNumeral = [] ∧ rest.dropWhile isNumeral = rest := by
    cases rest with
    | nil => exact ⟨rfl, rfl⟩
    | cons c rest => rcases h c rfl with rfl | rfl | rfl <;> exact ⟨rfl, rfl⟩
  have hall (c : Char) (hc : c ∈ value.chars) : isNumeral c = true := value.isNumeral_of_mem hc
  simp only [takeNumber?, List.takeWhile_append_of_pos hall, List.dropWhile_append_of_pos hall,
    hrest, List.append_nil, value.valid, dite_true]

/-! ## Strings -/

theorem hexDigit?_hexDigit : ∀ n < 16, hexDigit? (hexDigit n) = some n := by
  decide

/-- A control character is read back from its code. -/
theorem hexCode?_hexDigit (h : c.toNat < 32) :
    hexCode? '0' '0' (hexDigit (c.toNat / 16)) (hexDigit (c.toNat % 16)) = some c.toNat := by
  have hzero : hexDigit? '0' = some 0 := by decide
  have hhigh := hexDigit?_hexDigit (c.toNat / 16) (by omega)
  have hlow := hexDigit?_hexDigit (c.toNat % 16) (by omega)
  simp [hexCode?, hzero, hhigh, hlow]
  omega

theorem readUnits?_short {e : Char} (he : e ≠ 'u') (h : shortEscape? e = some c) :
    readUnits? ('\\' :: e :: cs) = (readUnits? cs).map fun r => (c.toNat :: r.1, r.2) := by
  rw [readUnits?.eq_4 _ _ fun _ _ _ _ _ hu => absurd hu he, h]
  cases readUnits? cs <;> rfl

theorem readUnits?_code (h : c.toNat < 32) :
    readUnits? ('\\' :: 'u' :: '0' :: '0' :: hexDigit (c.toNat / 16) ::
      hexDigit (c.toNat % 16) :: cs) = (readUnits? cs).map fun r => (c.toNat :: r.1, r.2) := by
  rw [readUnits?, hexCode?_hexDigit h]
  cases readUnits? cs <;> rfl

theorem readUnits?_plain (hq : c ≠ '"') (hb : c ≠ '\\') (hn : ¬ c.toNat < 32) :
    readUnits? (c :: cs) = (readUnits? cs).map fun r => (c.toNat :: r.1, r.2) := by
  rw [readUnits?.eq_5 _ _ hq (fun _ _ _ _ _ h => absurd h hb) (fun _ _ h => absurd h hb),
    if_neg hn]
  cases readUnits? cs <;> rfl

/-- A character is read back as its code point, however it was escaped. -/
theorem readUnits?_escape (c : Char) (cs : List Char) :
    readUnits? (escape c ++ cs) = (readUnits? cs).map fun r => (c.toNat :: r.1, r.2) := by
  have hshort {d e : Char} (hc : c = d) (he : e ≠ 'u') (h : shortEscape? e = some d) :
      readUnits? ('\\' :: e :: cs) = (readUnits? cs).map fun r => (c.toNat :: r.1, r.2) := by
    rw [hc]
    exact readUnits?_short he h
  by_cases hq : c = '"'
  · rw [escape, if_pos hq]
    exact hshort hq (by decide) (by decide)
  by_cases hb : c = '\\'
  · rw [escape, if_neg hq, if_pos hb]
    exact hshort hb (by decide) (by decide)
  rw [escape, if_neg hq, if_neg hb]
  split_ifs with h8 hc hn hr ht hlow
  · exact hshort h8 (by decide) (by decide)
  · exact hshort hc (by decide) (by decide)
  · exact hshort hn (by decide) (by decide)
  · exact hshort hr (by decide) (by decide)
  · exact hshort ht (by decide) (by decide)
  · exact readUnits?_code hlow
  · exact readUnits?_plain hq hb hlow

theorem readUnits?_text (text : List Char) (rest : List Char) :
    readUnits? (text.flatMap escape ++ '"' :: rest) = some (text.map Char.toNat, rest) := by
  induction text with
  | nil => rfl
  | cons c text ih =>
    rw [List.flatMap_cons, List.append_assoc, readUnits?_escape, ih]
    rfl

/-- No character is half of a surrogate pair. -/
theorem not_half (c : Char) : isHighHalf c.toNat = false ∧ isLowHalf c.toNat = false := by
  have hv : c.toNat < 0xD800 ∨ 0xDFFF < c.toNat := by
    rcases c.valid with h | h
    · exact .inl h
    · exact .inr h.1
  simp only [isHighHalf, isLowHalf, Bool.and_eq_false_iff, decide_eq_false_iff_not]
  omega

theorem textOfUnits?_map_toNat (text : List Char) :
    textOfUnits? (text.map Char.toNat) = some text := by
  induction text with
  | nil => rfl
  | cons c text ih =>
    obtain ⟨hhigh, hlow⟩ := not_half c
    rw [List.map_cons, textOfUnits?.eq_def]
    simp [hhigh, hlow, ih]

theorem readString?_text (text : String) (rest : List Char) :
    readString? (text.toList.flatMap escape ++ '"' :: rest) = some (some text, rest) := by
  simp [readString?, readUnits?_text, textOfUnits?_map_toNat]

/-- Half of a surrogate pair stands for no text. -/
theorem readString?_half (rest : List Char) :
    readString? ('\\' :: 'u' :: 'd' :: '8' :: '0' :: '0' :: '"' :: rest) = some (none, rest) := by
  have hcode : hexCode? 'd' '8' '0' '0' = some 0xD800 := by decide
  have hunits : readUnits? ('"' :: rest) = some ([], rest) := by rw [readUnits?]
  have htext : textOfUnits? [0xD800] = none := by decide
  simp [readString?, readUnits?, hcode, hunits, htext]

/-- A string is read back, also one without a text. -/
theorem readString?_writeString (text : Option String) :
    ∃ cs, writeString text = '"' :: cs ∧
      ∀ rest, readString? (cs ++ rest) = some (text, rest) := by
  cases text with
  | none => exact ⟨['\\', 'u', 'd', '8', '0', '0', '"'], by decide, readString?_half⟩
  | some text =>
    refine ⟨text.toList.flatMap escape ++ ['"'], rfl, fun rest => ?_⟩
    rw [List.append_assoc]
    exact readString?_text text rest

/-! ## Documents -/

/-- What is written begins with neither a blank nor the end of an array. -/
theorem Document.write_eq_cons (document : Document) :
    ∃ c cs, document.write = c :: cs ∧ isBlank c = false ∧ c ≠ ']' := by
  cases document with
  | null => exact ⟨'n', ['u', 'l', 'l'], by rw [Document.write]; decide, by decide, by decide⟩
  | bool value =>
    cases value
    · exact ⟨'f', ['a', 'l', 's', 'e'], by rw [Document.write]; decide, by decide, by decide⟩
    · exact ⟨'t', ['r', 'u', 'e'], by rw [Document.write]; decide, by decide, by decide⟩
  | number value =>
    obtain ⟨c, cs, hcs, hc⟩ := value.chars_eq_cons
    refine ⟨c, cs, by rw [Document.write, hcs], isBlank_of_isNumeral hc, ?_⟩
    rintro rfl
    exact absurd hc (by decide)
  | string text =>
    obtain ⟨cs, heq, -⟩ := readString?_writeString text
    exact ⟨'"', cs, by rw [Document.write, heq], by decide, by decide⟩
  | array items => exact ⟨'[', _, by rw [Document.write]; rfl, by decide, by decide⟩
  | object members => exact ⟨'{', _, by rw [Document.write]; rfl, by decide, by decide⟩

/-- No other document begins with a numeral. -/
theorem readDocument?_number (value : Number) (fuel : Nat) (h : Ended rest) :
    readDocument? (fuel + 1) (value.chars ++ rest) = some (.number value, rest) := by
  have hread := takeNumber?_append value h
  obtain ⟨c, cs, hcs, hc⟩ := value.chars_eq_cons
  rw [hcs, List.cons_append] at hread ⊢
  rw [readDocument?, skipBlanks_cons (isBlank_of_isNumeral hc)]
  split
  case h_7 => rw [hread]; rfl
  all_goals
    rename_i heq
    obtain ⟨rfl, -⟩ := List.cons.inj heq
    exact absurd hc (by decide)

/-- An array with items is read through its items. -/
theorem readDocument?_array (fuel : Nat) (hblank : isBlank c = false) (hend : c ≠ ']') :
    readDocument? (fuel + 1) ('[' :: c :: cs) =
      (readItems? fuel (c :: cs)).map fun r => (.array r.1, r.2) := by
  rw [readDocument?, skipBlanks_cons (by decide)]
  simp only [skipBlanks_cons hblank]
  split
  · rename_i heq
    exact absurd (List.cons.inj heq).1 hend
  · rfl

/-- An object with members is read through its members. -/
theorem readDocument?_object (fuel : Nat) (cs : List Char) :
    readDocument? (fuel + 1) ('{' :: '"' :: cs) =
      (readMembers? fuel ('"' :: cs)).map fun r => (.object r.1, r.2) := by
  rw [readDocument?, skipBlanks_cons (by decide)]
  simp only [skipBlanks_cons (c := '"') (by decide)]
  rfl

theorem readItems?_last {item : Document} {fuel : Nat}
    (h : readDocument? fuel cs = some (item, ']' :: rest)) :
    readItems? (fuel + 1) cs = some ([item], rest) := by
  rw [readItems?, h]
  rfl

theorem readItems?_next {item : Document} {fuel : Nat}
    (h : readDocument? fuel cs = some (item, ',' :: rest)) :
    readItems? (fuel + 1) cs = (readItems? fuel rest).map fun r => (item :: r.1, r.2) := by
  rw [readItems?, h]
  rfl

theorem readMembers?_last (name : Option String) {value : Document} {fuel : Nat}
    (h : readDocument? fuel cs = some (value, '}' :: rest)) :
    readMembers? (fuel + 1) (writeString name ++ ':' :: cs) = some ([(name, value)], rest) := by
  obtain ⟨text, htext, hname⟩ := readString?_writeString name
  rw [readMembers?, htext, List.cons_append, skipBlanks_cons (by decide)]
  simp only [hname, Option.bind_eq_bind, Option.bind_some, skipBlanks_cons (c := ':') (by decide),
    h, skipBlanks_cons (c := '}') (by decide)]

theorem readMembers?_next (name : Option String) {value : Document} {fuel : Nat}
    (h : readDocument? fuel cs = some (value, ',' :: rest)) :
    readMembers? (fuel + 1) (writeString name ++ ':' :: cs) =
      (readMembers? fuel rest).map fun r => ((name, value) :: r.1, r.2) := by
  obtain ⟨text, htext, hname⟩ := readString?_writeString name
  rw [readMembers?, htext, List.cons_append, skipBlanks_cons (by decide)]
  simp only [hname, Option.bind_eq_bind, Option.bind_some, skipBlanks_cons (c := ':') (by decide),
    h, skipBlanks_cons (c := ',') (by decide)]

/-- What begins the first text begins all of them. -/
theorem joinWith_eq_cons (h : cs = c :: rest) (texts : List (List Char)) :
    ∃ rest, joinWith [','] (cs :: texts) = c :: rest := by
  cases texts with
  | nil => exact ⟨rest, h⟩
  | cons text texts => exact ⟨_, by rw [joinWith, h]; rfl⟩

-- The recursion is on the fuel, as in the reader; twice the length of what is left is enough of it.
mutual

/-- A document is read back from what is written, whatever ends it. -/
theorem readDocument?_write (document : Document) (rest : List Char) {fuel : Nat}
    (hrest : Ended rest) (hfuel : 2 * document.write.length + 1 ≤ fuel) :
    readDocument? fuel (document.write ++ rest) = some (document, rest) := by
  obtain ⟨fuel, rfl⟩ : ∃ n, fuel = n + 1 := ⟨fuel - 1, by omega⟩
  match document with
  | .null => rfl
  | .bool true => rfl
  | .bool false => rfl
  | .number value =>
    rw [Document.write]
    exact readDocument?_number value fuel hrest
  | .string text =>
    obtain ⟨cs, hcs, hread⟩ := readString?_writeString text
    rw [Document.write, hcs, List.cons_append, readDocument?, skipBlanks_cons (by decide)]
    simp only [hread, Option.map_some]
  | .array [] => rfl
  | .array (item :: items) =>
    simp only [Document.write, List.length_cons, List.length_append] at hfuel
    have hitems := readItems?_write item items rest
      (show 2 * (joinWith [','] (writeItems (item :: items))).length + 2 ≤ fuel by omega)
    obtain ⟨c, cs, hcs, hblank, hend⟩ := item.write_eq_cons
    obtain ⟨cs, hcs⟩ := joinWith_eq_cons hcs (writeItems items)
    rw [Document.write]
    rw [writeItems, hcs] at hitems ⊢
    simp only [List.cons_append, List.append_assoc, List.nil_append] at hitems ⊢
    rw [readDocument?_array fuel hblank hend, hitems]
    rfl
  | .object [] => rfl
  | .object ((name, value) :: members) =>
    simp only [Document.write, List.length_cons, List.length_append] at hfuel
    have hmembers := readMembers?_write name value members rest
      (show 2 * (joinWith [','] (writeMembers ((name, value) :: members))).length + 2 ≤ fuel by
        omega)
    obtain ⟨text, htext, -⟩ := readString?_writeString name
    have hcs : writeString name ++ ':' :: value.write = '"' :: (text ++ ':' :: value.write) := by
      rw [htext, List.cons_append]
    obtain ⟨cs, hcs⟩ := joinWith_eq_cons hcs (writeMembers members)
    rw [Document.write]
    rw [writeMembers, hcs] at hmembers ⊢
    simp only [List.cons_append, List.append_assoc, List.nil_append] at hmembers ⊢
    rw [readDocument?_object fuel, hmembers]
    rfl
termination_by fuel

/-- Items are read back up to the closing bracket. -/
theorem readItems?_write (item : Document) (items : List Document) (rest : List Char) {fuel : Nat}
    (hfuel : 2 * (joinWith [','] (writeItems (item :: items))).length + 2 ≤ fuel) :
    readItems? fuel (joinWith [','] (writeItems (item :: items)) ++ ']' :: rest) =
      some (item :: items, rest) := by
  obtain ⟨fuel, rfl⟩ : ∃ n, fuel = n + 1 := ⟨fuel - 1, by omega⟩
  match items with
  | [] =>
    simp only [writeItems, joinWith] at hfuel ⊢
    exact readItems?_last
      (readDocument?_write item _ (ended_cons (.inr (.inl rfl))) (by omega))
  | next :: items =>
    simp only [writeItems, joinWith, List.length_append, List.length_singleton] at hfuel
    have hitem := readDocument?_write item
      (',' :: (joinWith [','] (writeItems (next :: items)) ++ ']' :: rest))
      (ended_cons (.inl rfl)) (show _ ≤ fuel by omega)
    have hnext := readItems?_write next items rest (show _ ≤ fuel by rw [writeItems]; omega)
    rw [writeItems, writeItems, joinWith, ← writeItems, List.append_assoc, List.append_assoc,
      List.singleton_append, readItems?_next hitem, hnext]
    rfl
termination_by fuel

/-- Members are read back up to the closing brace. -/
theorem readMembers?_write (name : Option String) (value : Document)
    (members : List (Option String × Document)) (rest : List Char) {fuel : Nat}
    (hfuel : 2 * (joinWith [','] (writeMembers ((name, value) :: members))).length + 2 ≤ fuel) :
    readMembers? fuel (joinWith [','] (writeMembers ((name, value) :: members)) ++ '}' :: rest) =
      some ((name, value) :: members, rest) := by
  obtain ⟨fuel, rfl⟩ : ∃ n, fuel = n + 1 := ⟨fuel - 1, by omega⟩
  match members with
  | [] =>
    simp only [writeMembers, joinWith, List.length_append, List.length_cons] at hfuel
    simp only [writeMembers, joinWith, List.append_assoc, List.cons_append]
    exact readMembers?_last name
      (readDocument?_write value _ (ended_cons (.inr (.inr rfl))) (by omega))
  | (next, v) :: members =>
    simp only [writeMembers, joinWith, List.length_append, List.length_cons] at hfuel
    have hvalue := readDocument?_write value
      (',' :: (joinWith [','] (writeMembers ((next, v) :: members)) ++ '}' :: rest))
      (ended_cons (.inl rfl)) (show _ ≤ fuel by omega)
    have hnext := readMembers?_write next v members rest
      (show _ ≤ fuel by rw [writeMembers]; omega)
    rw [writeMembers, writeMembers, joinWith, ← writeMembers, List.append_assoc, List.append_assoc,
      List.append_assoc, List.cons_append, List.singleton_append, readMembers?_next name hvalue,
      hnext]
    rfl
termination_by fuel

end

/-- A document is read back from its text. -/
theorem Document.read?_render (document : Document) :
    Document.read? document.render = some document := by
  have hread := readDocument?_write document [] ended_nil (Nat.le_refl _)
  rw [List.append_nil] at hread
  unfold Document.read? Document.render
  simp only [String.toList_ofList, hread]
  rfl

theorem Document.read?_blank_line (document : Document) :
    Document.read? ("\n" ++ document.render) = some document := by
  have hfuel : 2 * document.write.length + 1 ≤ 2 * (document.write.length + 1) + 1 := by omega
  have hread := readDocument?_write document [] ended_nil hfuel
  rw [List.append_nil] at hread
  have hblank (fuel : Nat) (cs : List Char) :
      readDocument? (fuel + 1) ('\n' :: cs) = readDocument? (fuel + 1) cs := rfl
  have htext : ("\n" ++ document.render).toList = '\n' :: document.write := by
    simp [Document.render]
  unfold Document.read?
  simp only [htext, List.length_cons, hblank, hread]
  rfl

end WhereClause.Json
