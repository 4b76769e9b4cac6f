import WhereClause.Text.CaseTable

/-!
# Upper case

Names of operators are compared without regard to case, by their upper-case forms. Two rules are in
use: one that changes the letters `a` to `z` only, and the full one of the Unicode standard, under
which a character may become several (`ß` becomes `SS`). A full upper-case form has no letter left
that the smaller rule would change.
-/

namespace WhereClause.Text

/-- The upper case of an ASCII letter; every other character stands for itself. -/
def upperAscii (c : Char) : Char :=
  if 97 ≤ c.toNat ∧ c.toNat ≤ 122 then Char.ofNat (c.toNat - 32) else c

/-- The full upper case of a character. -/
def upperChar (c : Char) : List Char :=
  if c.toNat < 128 then
    [upperAscii c]
  else
    match caseExpansions.lookup c.toNat with
    | some codes => codes.map Char.ofNat
    | none =>
      match caseRuns.find? (·.holds c.toNat) with
      | some run => [Char.ofNat (run.map c.toNat)]
      | none => [c]

/-- The text with its ASCII letters in upper case. -/
def asciiUpper (s : String) : String :=
  String.ofList (s.toList.map upperAscii)

/-- The full upper-case form of a text. -/
def upper (s : String) : String :=
  String.ofList (s.toList.flatMap upperChar)

/-- Equality of texts up to the case of ASCII letters. -/
def eqIgnoringAsciiCase (s t : String) : Bool :=
  asciiUpper s == asciiUpper t

/-! ## Upper-case forms have no small ASCII letter -/

theorem toNat_ofNat (n : Nat) : (Char.ofNat n).toNat = n ∨ (Char.ofNat n).toNat = 0 := by
  unfold Char.ofNat
  by_cases h : n.isValidChar
  · rw [dif_pos h]
    exact .inl rfl
  · rw [dif_neg h]
    exact .inr rfl

theorem upperAscii_ofNat {n : Nat} (h : n < 97 ∨ 122 < n) :
    upperAscii (Char.ofNat n) = Char.ofNat n := by
  have := toNat_ofNat n
  rw [upperAscii, if_neg (by omega)]

theorem upperAscii_upperAscii (c : Char) : upperAscii (upperAscii c) = upperAscii c := by
  by_cases h : 97 ≤ c.toNat ∧ c.toNat ≤ 122
  · rw [show upperAscii c = Char.ofNat (c.toNat - 32) by simp [upperAscii, h]]
    exact upperAscii_ofNat (by omega)
  · simp [upperAscii, h]

/-- No expansion holds a small ASCII letter. -/
theorem caseExpansions_not_small :
    ∀ e ∈ caseExpansions, ∀ code ∈ e.2, code < 97 ∨ 122 < code := by
  decide +kernel

/-- No run maps to a small ASCII letter. -/
theorem caseRuns_not_small :
    ∀ run ∈ caseRuns, run.upper + (run.last - run.first) < 97 ∨ 122 < run.upper := by
  decide +kernel

theorem upperAscii_of_mem_upperChar {c d : Char} (h : d ∈ upperChar c) : upperAscii d = d := by
  unfold upperChar at h
  split at h
  · simp only [List.mem_singleton] at h
    rw [h, upperAscii_upperAscii]
  · rename_i hc
    split at h
    · rename_i codes hl
      obtain ⟨code, hm, rfl⟩ := List.mem_map.1 h
      obtain ⟨l₁, l₂, hl, -⟩ := List.lookup_eq_some_iff.1 hl
      exact upperAscii_ofNat (caseExpansions_not_small (c.toNat, codes) (by simp [hl]) code hm)
    · split at h
      · rename_i run hr
        simp only [List.mem_singleton] at h
        subst h
        have hh := List.find?_some hr
        have hs := caseRuns_not_small run (List.mem_of_find?_eq_some hr)
        simp only [CaseRun.holds, Bool.and_eq_true, decide_eq_true_eq] at hh
        exact upperAscii_ofNat (by unfold CaseRun.map; omega)
      · simp only [List.mem_singleton] at h
        rw [h, upperAscii, if_neg (by omega)]

theorem asciiUpper_upper (s : String) : asciiUpper (upper s) = upper s := by
  unfold asciiUpper
  conv => rhs; rw [← String.ofList_toList (s := upper s)]
  congr 1
  rw [List.map_congr_left (g := id), List.map_id]
  intro d hd
  simp only [upper, String.toList_ofList] at hd
  obtain ⟨c, -, hc⟩ := List.mem_flatMap.1 hd
  exact upperAscii_of_mem_upperChar hc

end WhereClause.Text
