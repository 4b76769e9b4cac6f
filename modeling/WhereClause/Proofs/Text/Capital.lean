import WhereClause.Text.Upper

/-!
# Upper-case forms

The upper case of an upper-case form is the form itself. For the runs of the case data this is a
matter of the places where they lie: what a run maps to is outside of all runs, or falls between the
code points of a run that takes every other one.
-/

namespace WhereClause.Text

/-! ## Where runs lie -/

namespace CaseRun

theorem holds_iff {run : CaseRun} {code : Nat} :
    run.holds code = true ↔
      run.first ≤ code ∧ code ≤ run.last ∧ (code - run.first) % run.stride = 0 := by
  simp [holds, and_assoc]

/-- The run maps to no code point that the other one holds. Both are seen as intervals; if these
meet, the other run leaves out every second code point, and its gaps are what the run maps to. -/
def clears (run other : CaseRun) : Bool :=
  (run.upper + (run.last - run.first)).blt other.first || other.last.blt run.upper ||
    ((run.stride == 2 || run.first == run.last) && other.stride == 2 &&
      (run.upper + other.first) % 2 == 1)

theorem not_holds_of_clears {run other : CaseRun} (h : run.clears other = true) {code : Nat}
    (hc : run.holds code = true) : ¬ other.holds (run.map code) = true := by
  simp only [clears, Bool.or_eq_true, Bool.and_eq_true, Nat.blt_eq, beq_iff_eq] at h
  rw [holds_iff] at hc ⊢
  obtain ⟨hfirst, hlast, hmod⟩ := hc
  rintro ⟨hfirst', hlast', hmod'⟩
  unfold map at hfirst' hlast' hmod'
  rcases h with (h | h) | ⟨⟨hrun, hother⟩, hodd⟩
  · omega
  · omega
  · have heven : (code - run.first) % 2 = 0 := by
      rcases hrun with hrun | hrun
      · rwa [hrun] at hmod
      · omega
    rw [hother] at hmod'
    omega

end CaseRun

-- tests of the whole data, as Boolean functions that the kernel evaluates

theorem caseRuns_clears : (caseRuns.all fun run => caseRuns.all run.clears) = true := by
  decide +kernel

/-- No run maps to a code point that expands. -/
theorem caseRuns_not_expanded :
    (caseRuns.all fun run => caseExpansions.all fun e =>
      (run.upper + (run.last - run.first)).blt e.1 || e.1.blt run.upper) = true := by
  decide +kernel

theorem upperChar_caseExpansions :
    ∀ e ∈ caseExpansions, ∀ code ∈ e.2, upperChar (Char.ofNat code) = [Char.ofNat code] := by
  decide +kernel

/-! ## Characters -/

/-- Where the upper case of a character comes from. -/
theorem upperChar_cases (c : Char) :
    (c.toNat < 128 ∧ upperChar c = [upperAscii c]) ∨
    (∃ codes, (c.toNat, codes) ∈ caseExpansions ∧ upperChar c = codes.map Char.ofNat) ∨
    (∃ run ∈ caseRuns, run.holds c.toNat = true ∧ upperChar c = [Char.ofNat (run.map c.toNat)]) ∨
    upperChar c = [c] := by
  unfold upperChar
  by_cases hc : c.toNat < 128
  · exact .inl ⟨hc, if_pos hc⟩
  · rw [if_neg hc]
    cases hl : caseExpansions.lookup c.toNat with
    | some codes =>
      obtain ⟨before, after, hm, -⟩ := List.lookup_eq_some_iff.1 hl
      exact .inr (.inl ⟨codes, by simp [hm], rfl⟩)
    | none =>
      cases hr : caseRuns.find? fun run => run.holds c.toNat with
      | some run =>
        have hh : run.holds c.toNat = true := by simpa using List.find?_some hr
        exact .inr (.inr (.inl ⟨run, List.mem_of_find?_eq_some hr, hh, rfl⟩))
      | none => exact .inr (.inr (.inr rfl))

theorem toNat_upperAscii_lt {c : Char} (h : c.toNat < 128) : (upperAscii c).toNat < 128 := by
  unfold upperAscii
  split
  · have := toNat_ofNat (c.toNat - 32)
    omega
  · exact h

/-- What a run maps to stands for itself. -/
theorem upperChar_run {run : CaseRun} (hrun : run ∈ caseRuns) {code : Nat}
    (hc : run.holds code = true) :
    upperChar (Char.ofNat (run.map code)) = [Char.ofNat (run.map code)] := by
  obtain ⟨hfirst, hlast, -⟩ := CaseRun.holds_iff.1 hc
  by_cases hsmall : (Char.ofNat (run.map code)).toNat < 128
  · have hrange : run.map code < 97 ∨ 122 < run.map code := by
      have := caseRuns_not_small run hrun
      unfold CaseRun.map
      omega
    rw [upperChar, if_pos hsmall, upperAscii_ofNat hrange]
  · -- a code point that is no character would have become the character 0
    have hval : (Char.ofNat (run.map code)).toNat = run.map code :=
      (toNat_ofNat _).resolve_right (by omega)
    have hexpansion : caseExpansions.lookup (run.map code) = none := by
      rw [List.lookup_eq_none_iff]
      intro e he
      have := List.all_eq_true.1 (List.all_eq_true.1 caseRuns_not_expanded run hrun) e he
      simp only [Bool.or_eq_true, Nat.blt_eq] at this
      rw [bne_iff_ne, CaseRun.map]
      omega
    have hruns : caseRuns.find? (fun other => other.holds (run.map code)) = none := by
      rw [List.find?_eq_none]
      intro other hother
      have := List.all_eq_true.1 (List.all_eq_true.1 caseRuns_clears run hrun) other hother
      exact CaseRun.not_holds_of_clears this hc
    rw [upperChar, if_neg hsmall, hval, hexpansion, hruns]

/-- A character of an upper-case form stands for itself. -/
theorem upperChar_of_mem_upperChar {c d : Char} (h : d ∈ upperChar c) : upperChar d = [d] := by
  have hfix := upperAscii_of_mem_upperChar h
  rcases upperChar_cases c with ⟨hc, hu⟩ | ⟨codes, hm, hu⟩ | ⟨run, hm, hh, hu⟩ | hu
  · rw [hu, List.mem_singleton] at h
    rw [h] at hfix ⊢
    rw [upperChar, if_pos (toNat_upperAscii_lt hc), hfix]
  · rw [hu] at h
    obtain ⟨code, hcode, rfl⟩ := List.mem_map.1 h
    exact upperChar_caseExpansions _ hm code hcode
  · rw [hu, List.mem_singleton] at h
    rw [h]
    exact upperChar_run hm hh
  · rw [hu, List.mem_singleton] at h
    rw [h, hu]

/-! ## Texts -/

theorem flatMap_upperChar {text : List Char} (h : ∀ d ∈ text, upperChar d = [d]) :
    text.flatMap upperChar = text := by
  induction text with
  | nil => rfl
  | cons d rest ih =>
    rw [List.flatMap_cons, h d (by simp), ih fun e he => h e (by simp [he])]
    rfl

/-- The upper case of an upper-case form is the form itself. -/
@[simp]
theorem upper_upper (s : String) : upper (upper s) = upper s := by
  rw [upper, upper, String.toList_ofList, flatMap_upperChar]
  intro d hd
  obtain ⟨c, -, hc⟩ := List.mem_flatMap.1 hd
  exact upperChar_of_mem_upperChar hc

/-! ## The minus -/

theorem caseExpansions_above_minus :
    ∀ e ∈ caseExpansions, e.2 ≠ [] ∧ ∀ code ∈ e.2, Char.ofNat code ≠ '-' := by
  decide +kernel

theorem caseRuns_above_minus :
    ∀ run ∈ caseRuns, 45 < run.upper := by
  decide +kernel

theorem upperChar_ne_nil (c : Char) : upperChar c ≠ [] := by
  rcases upperChar_cases c with ⟨-, hu⟩ | ⟨codes, hm, hu⟩ | ⟨run, -, -, hu⟩ | hu
  · simp [hu]
  · simpa [hu] using (caseExpansions_above_minus _ hm).1
  · simp [hu]
  · simp [hu]

/-- No other character has a minus in its upper case. -/
theorem eq_minus_of_mem_upperChar {c : Char} (h : '-' ∈ upperChar c) : c = '-' := by
  rcases upperChar_cases c with ⟨hc, hu⟩ | ⟨codes, hm, hu⟩ | ⟨run, hm, hh, hu⟩ | hu
  · rw [hu, List.mem_singleton, upperAscii] at h
    split at h
    · have := toNat_ofNat (c.toNat - 32)
      rw [← h] at this
      have hminus : '-'.toNat = 45 := rfl
      omega
    · exact h.symm
  · rw [hu] at h
    obtain ⟨code, hcode, he⟩ := List.mem_map.1 h
    exact absurd he ((caseExpansions_above_minus _ hm).2 code hcode)
  · rw [hu, List.mem_singleton] at h
    have := caseRuns_above_minus run hm
    have hval := toNat_ofNat (run.map c.toNat)
    rw [← h] at hval
    have hminus : '-'.toNat = 45 := rfl
    unfold CaseRun.map at hval
    omega
  · rw [hu, List.mem_singleton] at h
    exact h.symm

/-- The minus is the upper case of nothing else. -/
theorem upper_eq_minus_iff {s : String} : upper s = "-" ↔ s = "-" := by
  constructor
  · intro h
    have hlist : s.toList.flatMap upperChar = ['-'] := by
      rw [upper] at h
      rw [← String.toList_ofList (l := s.toList.flatMap upperChar), h]
      rfl
    suffices s.toList = ['-'] by
      rw [← String.ofList_toList (s := s), this]
    cases hs : s.toList with
    | nil => simp [hs] at hlist
    | cons c rest =>
      rw [hs, List.flatMap_cons] at hlist
      rcases List.append_eq_singleton_iff.1 hlist with ⟨hc, -⟩ | ⟨hc, hrest⟩
      · exact absurd hc (upperChar_ne_nil c)
      · obtain rfl := eq_minus_of_mem_upperChar (c := c) (by simp [hc])
        cases rest with
        | nil => rfl
        | cons d rest =>
          rw [List.flatMap_cons, List.append_eq_nil_iff] at hrest
          exact absurd hrest.1 (upperChar_ne_nil d)
  · rintro rfl
    decide

end WhereClause.Text
