import WhereClause.Decimal.Layout

/-!
# Texts of decimals

What can be said of the text of a number without its value: which characters occur in it, and where
a minus may stand. A text that is read as a decimal has a minus only as its sign and as the sign of
its power of ten.
-/

namespace WhereClause.Decimal

/-! ## Digits -/

theorem digitsValue_toDigits (n : Nat) : digitsValue (Nat.toDigits 10 n) = n :=
  Nat.ofDigitChars_ten_toDigits

theorem isDigit_of_mem_digitsOf {n : Nat} {c : Char} (h : c ∈ digitsOf n) : c.isDigit = true :=
  Nat.isDigit_of_mem_toDigits (by decide) (by decide) h

theorem isDigits_toDigits (n : Nat) : isDigits (Nat.toDigits 10 n) = true := by
  have hne : Nat.toDigits 10 n ≠ [] := Nat.toDigits_ne_nil
  simp only [isDigits, Bool.and_eq_true, List.all_eq_true]
  exact ⟨by simp [hne], fun c hc => isDigit_of_mem_digitsOf hc⟩

/-- A text that begins with a digit or a point has no sign. -/
theorem takeSign_of_head {cs : List Char} (h : ∀ c ∈ cs.head?, c ≠ '-' ∧ c ≠ '+') :
    takeSign cs = (false, cs) := by
  unfold takeSign
  split
  · exact absurd rfl (h '-' rfl).1
  · exact absurd rfl (h '+' rfl).2
  · rfl

theorem ne_sign_of_isDigit {c : Char} (h : c.isDigit = true) : c ≠ '-' ∧ c ≠ '+' := by
  constructor
  · rintro rfl
    cases h
  · rintro rfl
    cases h

theorem takeSign_of_isDigits {cs : List Char} (h : isDigits cs = true) :
    takeSign cs = (false, cs) := by
  refine takeSign_of_head fun c hc => ne_sign_of_isDigit ?_
  simp only [isDigits, Bool.and_eq_true, List.all_eq_true] at h
  exact h.2 c (List.mem_of_head? hc)

theorem readInt?_of_isDigits {cs : List Char} (h : isDigits cs = true) :
    readInt? cs = some (digitsValue cs) := by
  simp [readInt?, takeSign_of_isDigits h, h]

/-- A text without a sign that has another character than digits is no integer. -/
theorem readInt?_eq_none {cs : List Char} (hs : takeSign cs = (false, cs)) {c : Char}
    (hc : c ∈ cs) (hd : c.isDigit = false) : readInt? cs = none := by
  have hn : isDigits cs = false := by
    simp only [isDigits, Bool.and_eq_false_iff, List.all_eq_false]
    exact .inr ⟨c, hc, by simp [hd]⟩
  simp [readInt?, hs, hn]

/-- The digits behind the sign of a text that is an integer. -/
theorem isDigits_of_readInt? {cs : List Char} {n : Int} (h : readInt? cs = some n) :
    isDigits (takeSign cs).2 = true := by
  unfold readInt? at h
  dsimp only at h
  split at h
  · assumption
  · cases h

/-! ## Decimals -/

/-- The sign of a decimal does not matter for the rest of it. -/
theorem read?_congr {cs cs' body : List Char} {negative negative' : Bool}
    (h : takeSign cs = (negative, body)) (h' : takeSign cs' = (negative', body)) :
    read? cs' = (read? cs).map fun d => { d with negative := negative' } := by
  simp only [read?, h, h']
  split
  all_goals
    split
    · rfl
    · rw [Option.map_map]
      rfl

theorem negative_of_read? {cs : List Char} {d : Decimal} (h : read? cs = some d) :
    d.negative = (takeSign cs).1 := by
  have hsign : takeSign cs = ((takeSign cs).1, (takeSign cs).2) := rfl
  have hself := read?_congr hsign hsign
  rw [h, Option.map_some, Option.some.injEq] at hself
  exact congrArg negative hself

/-- A decimal behind its sign: digits and a point, and then a power of ten or nothing. -/
theorem exists_mantissa {cs : List Char} {d : Decimal} (h : read? cs = some d) :
    ∃ m rest, (takeSign cs).2 = m ++ rest ∧ m ≠ [] ∧ (∀ c ∈ m, c.isDigit = true ∨ c = '.') ∧
      (readExponent? rest).isSome = true := by
  simp only [read?] at h
  generalize (takeSign cs).2 = body at h
  generalize (takeSign cs).1 = negative at h
  have hbody := List.takeWhile_append_dropWhile (p := Char.isDigit) (l := body)
  have hwhole : ∀ c ∈ body.takeWhile Char.isDigit, c.isDigit = true :=
    List.all_eq_true.1 List.all_takeWhile
  split at h
  · rename_i rest hdrop
    have hrest := List.takeWhile_append_dropWhile (p := Char.isDigit) (l := rest)
    have hfraction : ∀ c ∈ rest.takeWhile Char.isDigit, c.isDigit = true :=
      List.all_eq_true.1 List.all_takeWhile
    split at h
    · cases h
    · obtain ⟨power, hpower, -⟩ := Option.map_eq_some_iff.1 h
      refine ⟨body.takeWhile Char.isDigit ++ '.' :: rest.takeWhile Char.isDigit,
        rest.dropWhile Char.isDigit, ?_, by simp, ?_, by simp [hpower]⟩
      · rw [List.append_assoc, List.cons_append, hrest, ← hdrop, hbody]
      · intro c hc
        rcases List.mem_append.1 hc with hc | hc
        · exact .inl (hwhole c hc)
        · rcases List.mem_cons.1 hc with hc | hc
          · exact .inr hc
          · exact .inl (hfraction c hc)
  · rename_i rest hdrop
    split at h
    · cases h
    · rename_i hne
      obtain ⟨power, hpower, -⟩ := Option.map_eq_some_iff.1 h
      refine ⟨body.takeWhile Char.isDigit, body.dropWhile Char.isDigit, hbody.symm, ?_,
        fun c hc => .inl (hwhole c hc), by simp [hpower]⟩
      simpa using hne

/-- A power of ten: a mark, and digits behind a sign or without one. -/
theorem exponent_cases {rest : List Char} (h : (readExponent? rest).isSome = true) :
    rest = [] ∨ ∃ mark ds, (mark = 'e' ∨ mark = 'E') ∧ rest = mark :: ds ∧
      isDigits (takeSign ds).2 = true := by
  unfold readExponent? at h
  split at h
  · exact .inl rfl
  · rename_i mark ds
    split at h
    · rename_i hmark
      obtain ⟨n, hn⟩ := Option.isSome_iff_exists.1 h
      exact .inr ⟨mark, ds, hmark, rfl, isDigits_of_readInt? hn⟩
    · cases h

theorem getLast?_takeSign {cs : List Char} (h : (takeSign cs).2 ≠ []) :
    cs.getLast? = (takeSign cs).2.getLast? := by
  unfold takeSign at h ⊢
  split at h
  · exact List.getLast?_cons_of_ne_nil h
  · exact List.getLast?_cons_of_ne_nil h
  · simp_all

theorem takeSign_append {cs : List Char} (h : '+' ∉ cs) :
    (if (takeSign cs).1 then ['-'] else []) ++ (takeSign cs).2 = cs := by
  unfold takeSign
  split
  · rfl
  · exact absurd List.mem_cons_self h
  · rfl

theorem mem_of_mem_takeSign {cs : List Char} {c : Char} (h : c ∈ (takeSign cs).2) : c ∈ cs := by
  unfold takeSign at h
  split at h
  · exact List.mem_cons_of_mem _ h
  · exact List.mem_cons_of_mem _ h
  · exact h

/-- Of a text that is read as a decimal, the last character is a digit or a point. -/
theorem last_of_read? {cs : List Char} {d : Decimal} (h : read? cs = some d) :
    ∀ c ∈ cs.getLast?, c.isDigit = true ∨ c = '.' := by
  intro c hc
  obtain ⟨m, rest, hbody, hne, hm, he⟩ := exists_mantissa h
  rw [getLast?_takeSign (by simp [hbody, hne]), hbody] at hc
  rcases exponent_cases he with rfl | ⟨mark, ds, -, rfl, hds⟩
  · rw [List.append_nil] at hc
    exact hm c (List.mem_of_getLast? hc)
  · simp only [isDigits, Bool.and_eq_true, List.all_eq_true] at hds
    have hd : (takeSign ds).2 ≠ [] := by simpa using hds.1
    have hdn : ds ≠ [] := by
      rintro rfl
      exact hd rfl
    rw [List.getLast?_append, List.getLast?_cons_of_ne_nil hdn, getLast?_takeSign hd] at hc
    refine .inl (hds.2 c (List.mem_of_getLast? ?_))
    cases hl : (takeSign ds).2.getLast? with
    | none => exact absurd (List.getLast?_eq_none_iff.1 hl) hd
    | some c' => simpa [hl] using hc

/-- Behind its sign, a text that is read as a decimal has no minus, or one between the mark of a
power of ten and its digits. -/
theorem minus_of_read? {cs : List Char} {d : Decimal} (h : read? cs = some d) (hp : '+' ∉ cs) :
    (∀ c ∈ (takeSign cs).2.head?, c.isDigit = true ∨ c = '.') ∧
      ('-' ∉ (takeSign cs).2 ∨ ∃ m mark ds, (takeSign cs).2 = m ++ mark :: '-' :: ds ∧
        m ≠ [] ∧ (∀ c ∈ m, c.isDigit = true ∨ c = '.') ∧ (mark = 'e' ∨ mark = 'E') ∧
        isDigits ds = true) := by
  obtain ⟨m, rest, hbody, hne, hm, he⟩ := exists_mantissa h
  have hminus : '-' ∉ m := fun hc => by simpa using hm _ hc
  refine ⟨fun c hc => ?_, ?_⟩
  · cases m with
    | nil => exact absurd rfl hne
    | cons z m =>
      rw [hbody, List.cons_append, List.head?_cons, Option.mem_some_iff] at hc
      exact hm c (by simp [hc])
  · rw [hbody]
    rcases exponent_cases he with rfl | ⟨mark, ds, hmark, rfl, hds⟩
    · exact .inl (by simpa using hminus)
    · have hmm : '-' ≠ mark := by
        rcases hmark with rfl | rfl <;> decide
      unfold takeSign at hds
      split at hds
      · exact .inr ⟨m, mark, _, rfl, hne, hm, hmark, hds⟩
      · exact absurd (mem_of_mem_takeSign (by simp [hbody])) hp
      · simp only [isDigits, Bool.and_eq_true, List.all_eq_true] at hds
        have hd : '-' ∉ ds := fun hc => by simpa using hds.2 _ hc
        exact .inl (by simp [hminus, hmm, hd])

/-! ## Texts of floats -/

/-- The characters of a float's text. -/
def InFloat (c : Char) : Prop :=
  c.isDigit = true ∨ c = '.' ∨ c = 'e' ∨ c = '-'

theorem toList_repr (n : Int) :
    n.repr.toList = (if n < 0 then ['-'] else []) ++ Nat.toDigits 10 n.natAbs := by
  rw [Int.repr_eq_if]
  by_cases h : 0 ≤ n
  · have ha : n.toNat = n.natAbs := by omega
    simp [h, ha, Int.not_lt.2 h]
  · have ha : (-n).toNat = n.natAbs := by omega
    simp [h, ha, Int.not_le.1 h]

theorem inFloat_repr (n : Int) : ∀ c ∈ n.repr.toList, InFloat c := by
  intro c hc
  rw [toList_repr] at hc
  rcases List.mem_append.1 hc with hc | hc
  · split at hc
    · exact .inr (.inr (.inr (List.mem_singleton.1 hc)))
    · cases hc
  · exact .inl (isDigit_of_mem_digitsOf hc)

theorem isDigit_of_mem_shortest {significand : Nat} {exponent : Int} {narrow : Bool} {c : Char}
    (h : c ∈ (shortest significand exponent narrow).digits) : c.isDigit = true := by
  simp only [shortest, Digits.ofNat, List.mem_reverse] at h
  exact isDigit_of_mem_digitsOf (List.mem_reverse.1 ((List.dropWhile_sublist _).subset h))

namespace Layout

theorem inFloat_positional {d : Digits} (hd : ∀ c ∈ d.digits, c.isDigit = true) :
    ∀ c ∈ positional d, InFloat c := by
  have hzero : InFloat '0' := .inl rfl
  intro c hc
  simp only [positional, List.mem_append, List.mem_cons] at hc
  rcases hc with hc | hc | hc
  · split at hc
    · exact List.mem_singleton.1 hc ▸ hzero
    · rcases List.mem_append.1 hc with hc | hc
      · exact .inl (hd c (List.mem_of_mem_take hc))
      · exact List.eq_of_mem_replicate hc ▸ hzero
  · exact .inr (.inl hc)
  · split at hc
    · exact List.mem_singleton.1 hc ▸ hzero
    · rcases List.mem_append.1 hc with hc | hc
      · exact List.eq_of_mem_replicate hc ▸ hzero
      · exact .inl (hd c (List.mem_of_mem_drop hc))

theorem inFloat_scientific {d : Digits} (hd : ∀ c ∈ d.digits, c.isDigit = true) :
    ∀ c ∈ scientific d, InFloat c := by
  intro c hc
  simp only [scientific, List.mem_append, List.mem_cons] at hc
  rcases hc with (hc | hc) | hc | hc
  · exact .inl (hd c (List.mem_of_mem_take hc))
  · split at hc
    · cases hc
    · rcases List.mem_cons.1 hc with hc | hc
      · exact .inr (.inl hc)
      · exact .inl (hd c (List.mem_of_mem_drop hc))
  · exact .inr (.inr (.inl hc))
  · exact inFloat_repr _ c hc

/-- The text of a number that is not negative has float characters only, and with a point or a
power of ten it is no integer. -/
theorem inFloat_magnitude (layout : Layout) (significand : Nat) (exponent : Int) (narrow : Bool) :
    (∀ c ∈ layout.magnitude significand exponent narrow, InFloat c) ∧
      ('.' ∈ layout.magnitude significand exponent narrow ∨
        'e' ∈ layout.magnitude significand exponent narrow) := by
  have hd : ∀ c ∈ (shortest significand exponent narrow).digits, c.isDigit = true :=
    fun c hc => isDigit_of_mem_shortest hc
  unfold magnitude
  split
  · exact ⟨by simp [InFloat], .inl (by simp)⟩
  · dsimp only
    split
    · exact ⟨inFloat_positional hd, .inl (by simp [positional])⟩
    · exact ⟨inFloat_scientific hd, .inr (by simp [scientific])⟩

end Layout

end WhereClause.Decimal
