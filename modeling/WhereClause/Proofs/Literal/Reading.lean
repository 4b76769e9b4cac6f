import WhereClause.Operator.Table
import WhereClause.Proofs.Decimal.Text
import WhereClause.Proofs.Token.Word

/-!
# Reading the text of a literal

The text of a literal without quotes is one word, or a minus and one word, and the word is read back
as the literal or its opposite. Only a float whose power of ten is negative has a minus inside; its
text falls into two words, the first of which is a name.
-/

namespace WhereClause

/-! ## Words that begin like a number -/

/-- The word begins with a digit or a point. -/
def Numeric (word : List Char) : Prop :=
  ∃ c rest, word = c :: rest ∧ (c.isDigit = true ∨ c = '.')

namespace Numeric

variable {word : List Char}

theorem upperAscii_eq {c : Char} (h : c.isDigit = true ∨ c = '.') :
    Text.upperAscii c = c ∧ Text.upperChar c = [c] := by
  have hc : c.toNat ≤ 57 := by
    rcases h with h | rfl
    · exact (Char.isDigit_iff_toNat.1 h).2
    · decide
  have hu : Text.upperAscii c = c := by
    rw [Text.upperAscii, if_neg (by omega)]
  exact ⟨hu, by rw [Text.upperChar, if_pos (by omega), hu]⟩

theorem ne_constant (h : Numeric word) {name : String}
    (hn : ∀ c ∈ name.toList.head?, ¬ (Text.upperAscii c).isDigit = true ∧ Text.upperAscii c ≠ '.') :
    Text.eqIgnoringAsciiCase (String.ofList word) name = false := by
  obtain ⟨c, rest, rfl, hc⟩ := h
  rw [Text.eqIgnoringAsciiCase, beq_eq_false_iff_ne]
  intro he
  have hl := congrArg String.toList he
  simp only [Text.asciiUpper, String.toList_ofList, List.map_cons, (upperAscii_eq hc).1] at hl
  cases ht : name.toList with
  | nil => simp [ht] at hl
  | cons d rest' =>
    obtain ⟨hd, hp⟩ := hn d (by simp [ht])
    rw [ht, List.map_cons, List.cons.injEq] at hl
    rcases hc with hc | hc
    · exact hd (hl.1 ▸ hc)
    · exact hp (hl.1 ▸ hc)

theorem takeSign_eq (h : Numeric word) : Decimal.takeSign word = (false, word) := by
  obtain ⟨c, rest, rfl, hc⟩ := h
  refine Decimal.takeSign_of_head fun d hd => ?_
  rw [List.head?_cons, Option.mem_some_iff] at hd
  subst hd
  rcases hc with hc | rfl
  · exact Decimal.ne_sign_of_isDigit hc
  · decide

/-- A word that begins like a number is a number, or else a name. -/
theorem ofWord?_eq (h : Numeric word) :
    Literal.ofWord? (String.ofList word) =
      match Literal.integer? (String.ofList word) with
      | some n => some (.integer n)
      | none => (Literal.float? (String.ofList word)).map .float := by
  rw [Literal.ofWord?, h.ne_constant (by decide), h.ne_constant (by decide),
    h.ne_constant (by decide)]
  rfl

/-- A word that begins like a number is no operator. -/
theorem get?_eq_none (h : Numeric word) :
    OperatorTable.standard.get? (String.ofList word) = none := by
  obtain ⟨c, rest, rfl, hc⟩ := h
  have hops : ∀ op ∈ OperatorTable.standard.configured.flatten,
      ∀ d ∈ (Text.upper op.symbol).toList.head?, ¬ d.isDigit = true ∧ d ≠ '.' := by
    decide +kernel
  rw [OperatorTable.get?, List.find?_eq_none]
  intro op hop he
  have hl := congrArg String.toList (eq_of_beq he)
  have hw : (Text.upper (String.ofList (c :: rest))).toList.head? = some c := by
    simp [Text.upper, (upperAscii_eq hc).2]
  obtain ⟨hd, hp⟩ := hops op hop c (by rw [hl, hw]; rfl)
  rcases hc with hc | hc
  · exact hd hc
  · exact hp hc

end Numeric

/-! ## Plain characters of numbers -/

open Lexicon

theorem plain_of_isDigit {c : Char} (h : c.isDigit = true) : Plain c := by
  have hd : ∀ d ∈ standard.delimiters, d.isDigit = false := by decide
  have hs : ∀ s ∈ standard.symbols, ∀ d ∈ s, d.isDigit = false := by decide
  constructor
  · by_cases hc : standard.isDelimiter c = true
    · rw [hd c (List.contains_iff_mem.1 hc)] at h
      cases h
    · simpa using hc
  · intro hc
    rw [hs _ hc c (by simp)] at h
    cases h

theorem not_isQuote_of_numeric {c : Char} (h : c.isDigit = true ∨ c = '.') :
    standard.isQuote c = false := by
  rcases h with h | rfl
  · have hq : ∀ d ∈ standard.quotes, d.isDigit = false := by decide
    by_cases hc : standard.isQuote c = true
    · rw [hq c (List.contains_iff_mem.1 hc)] at h
      cases h
    · simpa using hc
  · decide

/-- Characters of a float without a minus form a word, if they begin like a number. -/
theorem isWord_of_numeric {word : List Char} (hn : Numeric word)
    (hc : ∀ c ∈ word, Decimal.InFloat c ∧ c ≠ '-') : IsWord word := by
  obtain ⟨c, rest, rfl, hnum⟩ := hn
  refine isWord_of_plain (by simp) (fun d hd => ?_) fun d hd => ?_
  · obtain ⟨hin, hne⟩ := hc d hd
    rcases hin with h | rfl | rfl | h
    · exact plain_of_isDigit h
    · decide
    · decide
    · exact absurd h hne
  · rw [List.head?_cons, Option.mem_some_iff] at hd
    exact not_isQuote_of_numeric (hd ▸ hnum)

theorem numeric_of_isDigits {ds : List Char} (h : Decimal.isDigits ds = true) : Numeric ds := by
  cases ds with
  | nil => cases h
  | cons c rest =>
    simp only [Decimal.isDigits, Bool.and_eq_true, List.all_eq_true] at h
    exact ⟨c, rest, rfl, .inl (h.2 c (by simp))⟩

theorem isWord_of_isDigits {ds : List Char} (h : Decimal.isDigits ds = true) : IsWord ds := by
  have hd : ∀ c ∈ ds, c.isDigit = true := by
    simp only [Decimal.isDigits, Bool.and_eq_true, List.all_eq_true] at h
    exact h.2
  exact isWord_of_numeric (numeric_of_isDigits h) fun c hc =>
    ⟨.inl (hd c hc), (Decimal.ne_sign_of_isDigit (hd c hc)).1⟩

/-! ## Texts of literals -/

namespace Literal

/-- The text of a float is read as an equal number. -/
def readsBack (x : Float) : Bool :=
  (float? (floatLayout.render x)).any (· == x)

/-- How the text of a literal is read, if no quotes stand around it. -/
inductive Written (value : Literal) : List Char → Prop
  /-- As a word that stands for the literal. -/
  | plain {word : List Char} {v : Literal} : IsWord word →
    ofWord? (String.ofList word) = some v → (v == value) = true → Written value word
  /-- As a minus and a word that stands for the opposite number. -/
  | signed {word : List Char} {v v' : Literal} : IsWord word →
    ofWord? (String.ofList word) = some v → v.negated? = some v' → (v' == value) = true →
    Written value ('-' :: word)
  /-- As a name, a minus and another word, with or without a sign before them. -/
  | broken {sign name word : List Char} : sign = [] ∨ sign = ['-'] → IsWord name → Numeric name →
    ofWord? (String.ofList name) = none → IsWord word → Written value (sign ++ name ++ '-' :: word)

theorem ofWord?_of_isDigits {ds : List Char} (h : Decimal.isDigits ds = true)
    (hle : (Decimal.digitsValue ds : Int) ≤ Int64.maxValue.toInt) :
    ofWord? (String.ofList ds) = some (.integer (Int64.ofInt (Decimal.digitsValue ds))) := by
  have hi : integer? (String.ofList ds) = some (Int64.ofInt (Decimal.digitsValue ds)) := by
    rw [integer?, String.toList_ofList, Decimal.readInt?_of_isDigits h]
    simp [hle]
  rw [(numeric_of_isDigits h).ofWord?_eq, hi]

theorem written_integer {n : Int64} (hn : n ≠ Int64.minValue) :
    Written (.integer n) (Literal.integer n).render.toList := by
  have hd := Decimal.isDigits_toDigits n.toInt.natAbs
  have hw := isWord_of_isDigits hd
  have hv := Decimal.digitsValue_toDigits n.toInt.natAbs
  have hmax : Int64.maxValue.toInt = 2 ^ 63 - 1 := rfl
  have hlt := Int64.toInt_lt n
  have hne : n.toInt ≠ Int64.minValue.toInt := fun h => hn (Int64.toInt_inj.1 h)
  rw [Int64.toInt_minValue] at hne
  have hge := Int64.le_toInt n
  have hr := ofWord?_of_isDigits hd (by omega)
  rw [hv] at hr
  rw [render, Decimal.toList_repr]
  by_cases hneg : n.toInt < 0
  · have hopp : Int64.ofInt (n.toInt.natAbs : Int) = -n := by
      rw [show (n.toInt.natAbs : Int) = -n.toInt by omega, Int64.ofInt_neg, Int64.ofInt_toInt]
    have hmin : -n ≠ Int64.minValue := by
      intro h
      have h' : n = -Int64.minValue := by rw [← h, Int64.neg_neg]
      exact hn h'
    rw [hopp] at hr
    rw [if_pos hneg]
    refine .signed hw hr (by rw [negated?, if_neg hmin, Int64.neg_neg]) ?_
    exact beq_self_eq_true n
  · have hself : Int64.ofInt (n.toInt.natAbs : Int) = n := by
      rw [show (n.toInt.natAbs : Int) = n.toInt by omega, Int64.ofInt_toInt]
    rw [hself] at hr
    rw [if_neg hneg]
    exact .plain hw hr (beq_self_eq_true n)

/-- A number without a minus in its text is not negative. -/
theorem nonneg_of_ofWord? {word : List Char} (h : '-' ∉ word) {n : Int64}
    (hn : ofWord? (String.ofList word) = some (.integer n)) : 0 ≤ n := by
  have hi : integer? (String.ofList word) = some n := by
    unfold ofWord? at hn
    split at hn
    · cases hn
    · split at hn
      · cases hn
      · split at hn
        · cases hn
        · split at hn
          · rename_i m hm
            cases hn
            exact hm
          · simp at hn
  obtain ⟨m, hm, hr⟩ := Option.bind_eq_some_iff.1 hi
  rw [String.toList_ofList, Decimal.readInt?] at hm
  have hsign : (Decimal.takeSign word).1 = false := by
    unfold Decimal.takeSign
    split
    · exact absurd List.mem_cons_self h
    · rfl
    · rfl
  generalize Decimal.takeSign word = p at hm hsign
  simp only [hsign, Bool.false_eq_true, if_false] at hm
  split at hm
  · split at hr
    · rename_i hrange
      have hmax : Int64.maxValue.toInt = 2 ^ 63 - 1 := rfl
      have hpos : 0 ≤ m := Option.some.inj hm ▸ Int.natCast_nonneg _
      have hto := Int64.toInt_ofInt_of_le hrange.1 (by omega)
      rw [Option.some.inj hr] at hto
      rw [Int64.le_iff_toInt_le, hto]
      exact hpos
    · cases hr
  · cases hm

/-- The least integer has no text without a minus. -/
theorem ofWord?_ne_minValue {word : List Char} (h : '-' ∉ word) :
    ofWord? (String.ofList word) ≠ some (.integer Int64.minValue) :=
  fun hn => absurd (nonneg_of_ofWord? h hn) (by decide)

/-! ## Texts of floats -/

theorem isFinite_infinity : Float.isFinite Decimal.infinity = false := by
  decide

/-- Only infinite values and values that are no number have an opposite that is not finite. -/
theorem isFinite_of_neg {x : Float} (h : Float.isFinite (-x) = true) : Float.isFinite x = true := by
  have hneg : Float.isFinite (-x) = (Float.Model.pack x.toModel.unpack.neg).isFinite := rfl
  have hx : Float.isFinite x = x.toModel.unpack.isFinite := rfl
  rw [hneg] at h
  rw [hx]
  cases hu : x.toModel.unpack with
  | infinity sign =>
    rw [hu] at h
    cases sign <;> exact absurd h (by decide)
  | notANumber =>
    rw [hu] at h
    exact absurd h (by decide)
  | zero sign => rfl
  | finite sign mantissa exponent hpos => rfl

theorem not_isFinite_of_named? {name : List Char} {x : Float} (h : Decimal.named? name = some x) :
    x.isFinite = false := by
  rw [Decimal.named?] at h
  split at h
  · exact Option.some.inj h ▸ isFinite_infinity
  · split at h
    · exact Option.some.inj h ▸ by decide
    · cases h

/-- A finite float is read from a decimal. -/
theorem read?_of_float? {word : String} {x : Float} (h : float? word = some x) :
    ∃ d, Decimal.read? word.toList = some d ∧ d.toFloat = x ∧ x.isFinite = true := by
  obtain ⟨hr, hf⟩ := Option.filter_eq_some_iff.1 h
  rw [Decimal.readFloat?] at hr
  split at hr
  · rename_i d hd
    exact ⟨d, hd, Option.some.inj hr, hf⟩
  · -- the values that have names are not finite
    generalize Decimal.takeSign word.toList = p at hr
    obtain ⟨y, hy, hx⟩ := Option.map_eq_some_iff.1 hr
    have hinf := not_isFinite_of_named? hy
    rw [← hx] at hf
    split at hf
    · rw [isFinite_of_neg hf] at hinf
      cases hinf
    · rw [hf] at hinf
      cases hinf

theorem float?_of_read? {word : List Char} {d : Decimal} (h : Decimal.read? word = some d)
    (hf : d.toFloat.isFinite = true) : float? (String.ofList word) = some d.toFloat := by
  rw [float?, String.toList_ofList, Decimal.readFloat?, h]
  exact Option.filter_eq_some_iff.2 ⟨rfl, hf⟩

/-- A word that begins like a number and has another character than digits is a float, or else a
name. -/
theorem ofWord?_of_not_isDigit {word : List Char} (hn : Numeric word) {c : Char} (hc : c ∈ word)
    (hd : c.isDigit = false) :
    ofWord? (String.ofList word) = (float? (String.ofList word)).map .float := by
  have hi : integer? (String.ofList word) = none := by
    rw [integer?, String.toList_ofList, Decimal.readInt?_eq_none hn.takeSign_eq hc hd]
    rfl
  rw [hn.ofWord?_eq, hi]

/-- The characters of a finite float's text. -/
theorem inFloat_render {x y : Float} (h : float? (floatLayout.render x) = some y) :
    (∀ c ∈ (floatLayout.render x).toList, Decimal.InFloat c) ∧
      ('.' ∈ (floatLayout.render x).toList ∨ 'e' ∈ (floatLayout.render x).toList) := by
  have hnan : float? floatLayout.nan = none := by decide +kernel
  have hinf : ∀ negative : Bool,
      float? ((if negative then "-" else "") ++ floatLayout.infinity) = none := by decide +kernel
  rw [Decimal.Layout.render] at h ⊢
  split at h
  · rw [hnan] at h
    cases h
  · rw [hinf] at h
    cases h
  · rename_i negative significand exponent narrow _
    obtain ⟨hin, hor⟩ := Decimal.Layout.inFloat_magnitude floatLayout significand exponent narrow
    rw [String.toList_append, String.toList_ofList]
    refine ⟨List.forall_mem_append.2 ⟨?_, hin⟩, hor.imp (List.mem_append_right _)
      (List.mem_append_right _)⟩
    cases negative <;> simp [Decimal.InFloat]

/-- What comes before the minus of a power is a name: it begins like a number, but it ends with the
mark of the power, and no decimal ends so. -/
theorem isName_of_mark {m : List Char} {mark : Char} (hne : m ≠ [])
    (hm : ∀ c ∈ m, c.isDigit = true ∨ c = '.') (hmark : mark = 'e' ∨ mark = 'E')
    (hin : ∀ c ∈ m ++ [mark], Decimal.InFloat c) :
    IsWord (m ++ [mark]) ∧ Numeric (m ++ [mark]) ∧
      ofWord? (String.ofList (m ++ [mark])) = none := by
  have hnum : Numeric (m ++ [mark]) := by
    cases m with
    | nil => exact absurd rfl hne
    | cons z rest => exact ⟨z, rest ++ [mark], rfl, hm z (by simp)⟩
  have hminus : ∀ c ∈ m ++ [mark], c ≠ '-' := by
    rintro c hc rfl
    rcases List.mem_append.1 hc with hc | hc
    · simpa using hm _ hc
    · rcases hmark with rfl | rfl <;> simp at hc
  refine ⟨isWord_of_numeric hnum fun c hc => ⟨hin c hc, hminus c hc⟩, hnum, ?_⟩
  have hmd : mark.isDigit = false := by rcases hmark with rfl | rfl <;> rfl
  rw [ofWord?_of_not_isDigit hnum (c := mark) (by simp) hmd, Option.map_eq_none_iff]
  cases hz : float? (String.ofList (m ++ [mark])) with
  | none => rfl
  | some z =>
    obtain ⟨d, hd, -, -⟩ := read?_of_float? hz
    rw [String.toList_ofList] at hd
    have hlast := Decimal.last_of_read? hd mark (by simp)
    rcases hmark with rfl | rfl <;> simp at hlast

/-- The text of a float that is read back is a word, behind a sign or without one, or it falls into
a name and a word. -/
theorem written_float {x : Float} (h : readsBack x = true) :
    Written (.float x) (Literal.float x).render.toList := by
  obtain ⟨y, hy, hyx⟩ := (Option.any_eq_true _ _).1 h
  obtain ⟨hin, hor⟩ := inFloat_render hy
  obtain ⟨d, hd, rfl, hf⟩ := read?_of_float? hy
  rw [render]
  generalize (floatLayout.render x).toList = cs at hin hor hd
  have hplus : '+' ∉ cs := fun hc => by simpa [Decimal.InFloat] using hin _ hc
  have hcs := Decimal.takeSign_append hplus
  have hneg := Decimal.negative_of_read? hd
  obtain ⟨hhead, hminus⟩ := Decimal.minus_of_read? hd hplus
  have hsign : Decimal.takeSign cs = ((Decimal.takeSign cs).1, (Decimal.takeSign cs).2) := rfl
  have hbody : ∀ c ∈ (Decimal.takeSign cs).2, Decimal.InFloat c := fun c hc =>
    hin c (Decimal.mem_of_mem_takeSign hc)
  generalize (Decimal.takeSign cs).1 = negative at hcs hneg hsign
  generalize (Decimal.takeSign cs).2 = body at hcs hhead hminus hsign hbody
  -- a point or a mark is not part of the sign
  obtain ⟨c, hc, hcd⟩ : ∃ c ∈ body, c.isDigit = false := by
    rw [← hcs] at hor
    rcases hor with hc | hc
    · exact ⟨'.', by cases negative <;> simpa using hc, rfl⟩
    · exact ⟨'e', by cases negative <;> simpa using hc, rfl⟩
  have hnum : Numeric body := by
    cases body with
    | nil => cases hc
    | cons z rest => exact ⟨z, rest, rfl, hhead z rfl⟩
  rw [← hcs]
  rcases hminus with hm | ⟨m, mark, ds, rfl, hne, hm, hmark, hds⟩
  · have hw := isWord_of_numeric hnum fun c hc => ⟨hbody c hc, fun he => hm (he ▸ hc)⟩
    have hr : Decimal.read? body = some { d with negative := false } := by
      rw [Decimal.read?_congr hsign hnum.takeSign_eq, hd]
      rfl
    have hword (hfin : (Decimal.magnitude d.coefficient d.exponent).isFinite = true) :
        ofWord? (String.ofList body) =
          some (.float (Decimal.magnitude d.coefficient d.exponent)) := by
      rw [ofWord?_of_not_isDigit hnum hc hcd, float?_of_read? hr hfin]
      rfl
    rw [Decimal.toFloat, hneg] at hf hyx
    cases negative with
    | true => exact .signed hw (hword (isFinite_of_neg hf)) rfl hyx
    | false => exact .plain hw (hword hf) hyx
  · have hsplit : m ++ mark :: '-' :: ds = m ++ [mark] ++ '-' :: ds := by simp
    rw [hsplit] at hbody ⊢
    obtain ⟨hname, hnum, hnone⟩ := isName_of_mark hne hm hmark fun c hc =>
      hbody c (List.mem_append_left _ hc)
    rw [← List.append_assoc]
    exact .broken (by cases negative <;> simp) hname hnum hnone (isWord_of_isDigits hds)

theorem written_null : Written .null Literal.null.render.toList := by
  refine .plain (isWord_of_plain (by decide) (by decide) (by decide)) (v := .null) ?_ rfl
  rw [ofWord?, if_pos (by decide)]

theorem written_boolean (b : Bool) : Written (.boolean b) (Literal.boolean b).render.toList := by
  have hw : IsWord (Literal.boolean b).render.toList := by
    cases b <;> exact isWord_of_plain (by decide) (by decide) (by decide)
  refine .plain hw (v := .boolean b) ?_ (by cases b <;> rfl)
  cases b
  · rw [ofWord?, if_neg (by decide), if_neg (by decide), if_pos (by decide)]
  · rw [ofWord?, if_neg (by decide), if_pos (by decide)]

end Literal

end WhereClause
