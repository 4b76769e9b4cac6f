import WhereClause.Proofs.Expr.Shape
import WhereClause.Proofs.Operand.Quoting

/-!
# Tokens of the text of a tree

The text of a tree is cut into the tokens of its leaves, its operators and its parentheses, as long
as all its strings are read back. If a string is not, the strings of the text differ from those of
the tree.

Both cases are one judgement, `Lexes`, which holds of a text whatever follows it, and so is put
together from the parts of the text.
-/

namespace WhereClause

open Lexicon

/-! ## Kinds of tokens -/

namespace Token.Kind

/-- The string that a token is. -/
def string? : Token.Kind → Option String
  | .literal (.string text) _ => some text
  | _ => none

/-- The word that a token is, if it is neither a literal nor an operator. -/
def name? : Token.Kind → Option String
  | .identifier text => if OperatorTable.standard.get? text = none then some text else none
  | _ => none

end Token.Kind

/-- The kinds of the tokens of a text at an offset. -/
def kindsAt (offset : Nat) (text : List Char) : List Token.Kind :=
  (standard.scan offset text).map Token.kind

/-- The text is cut into tokens of these kinds, whatever follows. -/
def Cuts (text : List Char) (ks : List Token.Kind) : Prop :=
  ∀ offset rest, ∃ stop, kindsAt offset (text ++ rest) = ks ++ kindsAt stop rest

/-- The text is cut into tokens of these kinds at its end, if `good` holds; and if not, then not
even the strings among the tokens are as given. -/
def Lexes (text : List Char) (ks : List Token.Kind) (good : Prop) : Prop :=
  ∀ offset rest, Ends rest →
    (good → ∃ stop, kindsAt offset (text ++ rest) = ks ++ kindsAt stop rest) ∧
      (¬ good → ¬ ks.filterMap Token.Kind.string? <+:
        (kindsAt offset (text ++ rest)).filterMap Token.Kind.string?)

variable {text text' : List Char} {ks ks' : List Token.Kind} {good good' : Prop}

theorem Cuts.lexes (h : Cuts text ks) : Lexes text ks True :=
  fun offset rest _ => ⟨fun _ => h offset rest, fun hn => absurd trivial hn⟩

theorem Lexes.congr (h : Lexes text ks good) (hg : good ↔ good') : Lexes text ks good' := by
  rwa [propext hg] at h

theorem Cuts.append (h : Cuts text ks) (h' : Cuts text' ks') :
    Cuts (text ++ text') (ks ++ ks') := by
  intro offset rest
  obtain ⟨stop, hs⟩ := h offset (text' ++ rest)
  obtain ⟨stop', hs'⟩ := h' stop rest
  exact ⟨stop', by rw [List.append_assoc, hs, hs', List.append_assoc]⟩

/-- A text after one that is cut off in any case. -/
theorem Cuts.append_lexes (h : Cuts text ks) (h' : Lexes text' ks' good) :
    Lexes (text ++ text') (ks ++ ks') good := by
  intro offset rest hr
  obtain ⟨stop, hs⟩ := h offset (text' ++ rest)
  obtain ⟨hg, hn⟩ := h' stop rest hr
  rw [List.append_assoc, hs]
  refine ⟨fun hgood => ?_, fun hbad hp => hn hbad ?_⟩
  · obtain ⟨stop', hs'⟩ := hg hgood
    exact ⟨stop', by rw [hs', List.append_assoc]⟩
  · rw [List.filterMap_append, List.filterMap_append] at hp
    exact (List.prefix_append_right_inj _).1 hp

/-- A text after one that ends there. -/
theorem Lexes.append (h : Lexes text ks good) (h' : Lexes text' ks' good')
    (he : ∀ rest, Ends rest → Ends (text' ++ rest)) :
    Lexes (text ++ text') (ks ++ ks') (good ∧ good') := by
  intro offset rest hr
  obtain ⟨hg, hn⟩ := h offset (text' ++ rest) (he rest hr)
  rw [List.append_assoc]
  by_cases hgood : good
  · obtain ⟨stop, hs⟩ := hg hgood
    obtain ⟨hg', hn'⟩ := h' stop rest hr
    rw [hs]
    refine ⟨fun hgg => ?_, fun hbad hp => hn' (fun hg' => hbad ⟨hgood, hg'⟩) ?_⟩
    · obtain ⟨stop', hs'⟩ := hg' hgg.2
      exact ⟨stop', by rw [hs', List.append_assoc]⟩
    · rw [List.filterMap_append, List.filterMap_append] at hp
      exact (List.prefix_append_right_inj _).1 hp
  · refine ⟨fun hgg => absurd hgg.1 hgood, fun _ hp => hn hgood ?_⟩
    rw [List.filterMap_append] at hp
    exact (List.prefix_append _ _).trans hp

/-- The kinds of a whole text. -/
theorem Lexes.kindsAt_eq (h : Lexes text ks good) (hg : good) (offset : Nat) :
    kindsAt offset text = ks := by
  obtain ⟨stop, hs⟩ := (h offset [] (by simp [Ends])).1 hg
  simpa [kindsAt] using hs

/-! ## Words, symbols and marks -/

theorem ofWord_kind (word : List Char) (span : Span) :
    (Token.ofWord word span).kind =
      match Literal.ofWord? (String.ofList word) with
      | some value => .literal value none
      | none => .identifier (String.ofList word) := by
  unfold Token.ofWord
  cases Literal.ofWord? (String.ofList word) <;> rfl

theorem lexes_word {word : List Char} (h : IsWord word) :
    Lexes word [(Token.ofWord word {}).kind] True := by
  intro offset rest hr
  refine ⟨fun _ => ⟨offset + byteSize word, ?_⟩, fun hn => absurd trivial hn⟩
  rw [kindsAt, scan_word h hr, List.map_cons, ofWord_kind, ofWord_kind]
  rfl

theorem lexes_literal {word : List Char} {value : Literal} (h : IsWord word)
    (hv : Literal.ofWord? (String.ofList word) = some value) :
    Lexes word [.literal value none] True := by
  have hl := lexes_word h
  rwa [ofWord_kind, hv] at hl

theorem lexes_name {word : List Char} (h : IsWord word)
    (hv : Literal.ofWord? (String.ofList word) = none) :
    Lexes word [.identifier (String.ofList word)] True := by
  have hl := lexes_word h
  rwa [ofWord_kind, hv] at hl

theorem lexes_symbol {symbol : List Char} (hs : symbol ∈ standard.symbols)
    (hm : String.ofList symbol ∉ ["(", ")", ","]) :
    Lexes symbol [.operator (String.ofList symbol)] True := by
  intro offset rest hr
  refine ⟨fun _ => ⟨offset + byteSize symbol, ?_⟩, fun hn => absurd trivial hn⟩
  rw [kindsAt, scan_symbol hs hr, List.map_cons]
  congr 1
  unfold Token.ofSymbol
  split
  · exact absurd (by decide) hm
  · exact absurd (by decide) hm
  · exact absurd (by decide) hm
  · rfl

theorem cuts_single {c : Char} (hs : [c] ∈ standard.symbols) (hg : standard.mayGrow [c] = false) :
    Cuts [c] [(Token.ofSymbol [c] {}).kind] := by
  intro offset rest
  refine ⟨offset + c.utf8Size, ?_⟩
  rw [kindsAt, List.singleton_append, scan_single hs hg, List.map_cons]
  congr 1
  unfold Token.ofSymbol
  split <;> rfl

theorem cuts_blank : Cuts [' '] [] := by
  intro offset rest
  exact ⟨_, congrArg (List.map Token.kind) (scan_delimiter (by decide) offset rest)⟩

/-- A blank cuts off what ends before it. -/
theorem Lexes.cuts (h : Lexes text ks True) : Cuts (text ++ [' ']) ks := by
  intro offset rest
  obtain ⟨stop, hs⟩ := (h offset (' ' :: rest) (by simp [Ends]; decide)).1 trivial
  obtain ⟨stop', hs'⟩ := cuts_blank stop rest
  exact ⟨stop', by rw [List.append_assoc, List.singleton_append, hs]; exact congrArg _ hs'⟩

theorem cuts_minus : Cuts ['-'] [.operator "-"] :=
  cuts_single (by decide) (by decide)

/-! ## Leaves -/

theorem Literal.ofWord?_ne_string {word text : String} :
    Literal.ofWord? word ≠ some (.string text) := by
  unfold Literal.ofWord?
  repeat' split
  all_goals simp

namespace Operand

/-- The operand is no string, or a string that is read back. -/
def Quotes (x : Operand) : Prop :=
  ∀ text, x = .literal (.string text) → Quotable text.toList

/-- The kinds of the tokens that stand for an operand in a text. -/
def kinds : Operand → List Token.Kind
  | .literal (.string text) => [.literal (.string text) (some (quoteOf text.toList))]
  | x => kindsAt 0 x.write

/-- How the tokens of an operand's text are related to the operand. -/
inductive Spelled (listed : Bool) : Operand → List Token.Kind → Prop
  | string {text : String} {quote : Char} :
    Spelled listed (.literal (.string text)) [.literal (.string text) (some quote)]
  /-- One token stands for the literal. -/
  | plain {value v : Literal} : (∀ text, value ≠ .string text) → (∀ text, v ≠ .string text) →
    (v == value) = true → '-' ∉ (Operand.literal value).write →
    Spelled listed (.literal value) [.literal v none]
  /-- A minus and a number stand for the literal. -/
  | signed {value v v' : Literal} : (∀ text, value ≠ .string text) →
    v.negated? = some v' → (v' == value) = true →
    (Operand.literal value).write.head? = some '-' → '-' ∉ (Operand.literal value).write.tail →
    Spelled listed (.literal value) [.operator "-", .literal v none]
  /-- A float falls into a name, a minus and another word. -/
  | broken {value : Literal} {name : String} {k : Token.Kind} (sign : List Token.Kind) :
    (∀ text, value ≠ .string text) → sign = [] ∨ sign = [.operator "-"] →
    OperatorTable.standard.get? name = none → k.string? = none → (∀ mark, k ≠ .punctuation mark) →
    '-' ∈ (Operand.literal value).write.tail →
    Spelled listed (.literal value) (sign ++ [.identifier name, .operator "-", k])
  | name {name : String} : '-' ∉ name.toList →
    (listed = false → OperatorTable.standard.get? name = none) →
    Spelled listed (.identifier name) [.identifier name]
  | symbol {name : String} : listed = true → name.toList ∈ standard.symbols →
    name ∉ ["(", ")", ","] → Spelled listed (.identifier name) [.operator name]

/-- Of an operand without quotes, the kinds are those of its text. -/
theorem kinds_eq {x : Operand} (hx : ∀ text, x ≠ .literal (.string text)) {ks : List Token.Kind}
    (h : Lexes x.write ks True) : x.kinds = ks ∧ Lexes x.write x.kinds x.Quotes := by
  have hk : x.kinds = ks := by
    unfold kinds
    split
    · rename_i text
      exact absurd rfl (hx text)
    · exact h.kindsAt_eq trivial 0
  rw [hk]
  exact ⟨rfl, h.congr (iff_of_true trivial fun text ht => absurd ht (hx text))⟩

theorem lexes_string (text : String) :
    Lexes (writeString text.toList)
      [.literal (.string text) (some (quoteOf text.toList))] (Quotable text.toList) := by
  intro offset rest _
  obtain ⟨found, span, stop, after, hs, hf, ha⟩ := scan_writeString offset text.toList rest
  rw [kindsAt, hs]
  refine ⟨fun hq => ⟨stop, ?_⟩, fun hq hp => hq (hf.1 ?_)⟩
  · rw [hf.2 hq, ha hq, String.ofList_toList]
    rfl
  · have he : text = String.ofList found := by
      simpa [Token.Kind.string?] using hp
    rw [he, String.toList_ofList]

/-- The tokens of a literal's text that has no quotes around it. -/
theorem spelled_literal {value : Literal} (listed : Bool)
    (hs : ∀ text, value ≠ .string text) (h : value.Written value.render.toList) :
    ∃ ks, Lexes (Operand.literal value).write ks True ∧ Spelled listed (.literal value) ks := by
  have hw : (Operand.literal value).write = value.render.toList := by
    cases value with
    | string text => exact absurd rfl (hs text)
    | _ => rfl
  generalize ht : value.render.toList = text at h hw
  cases h with
  | plain hword hv he =>
    refine ⟨_, hw ▸ lexes_literal hword hv, .plain hs ?_ he (hw ▸ hword.minus_not_mem)⟩
    rintro text rfl
    exact Literal.ofWord?_ne_string hv
  | @signed word v v' hword hv hn he =>
    have hl := cuts_minus.append_lexes (lexes_literal hword hv)
    exact ⟨_, hw ▸ hl, .signed hs hn he (by simp [hw]) (by simpa [hw] using hword.minus_not_mem)⟩
  | @broken sign name word hsign hname hnum hnone hword =>
    have hminus : ∀ rest, Ends rest → Ends ('-' :: word ++ rest) := by
      intro rest _ c hc
      rw [List.cons_append, List.head?_cons, Option.mem_some_iff] at hc
      exact .inr (hc ▸ by decide)
    have hbody := ((lexes_name hname hnone).append
      (cuts_minus.append_lexes (lexes_word hword)) hminus).congr (and_self_iff)
    have hk : (Token.ofWord word {}).kind.string? = none ∧
        ∀ mark, (Token.ofWord word {}).kind ≠ .punctuation mark := by
      rw [ofWord_kind]
      cases hv : Literal.ofWord? (String.ofList word) with
      | none => exact ⟨rfl, by simp⟩
      | some v =>
        refine ⟨?_, by simp⟩
        cases v with
        | string text => exact absurd hv Literal.ofWord?_ne_string
        | _ => rfl
    rcases hsign with rfl | rfl
    · refine ⟨_, hw ▸ hbody, .broken [] hs (.inl rfl) hnum.get?_eq_none hk.1 hk.2 ?_⟩
      obtain ⟨c, rest, rfl, -⟩ := hnum
      simp [hw]
    · refine ⟨_, hw ▸ cuts_minus.append_lexes hbody,
        .broken [.operator "-"] hs (.inr rfl) hnum.get?_eq_none hk.1 hk.2 ?_⟩
      simp [hw]

/-- A leaf that can be read is cut into the tokens of its kinds. -/
theorem spelled {listed : Bool} {x : Operand} (h : Readable listed x) :
    Spelled listed x x.kinds ∧ Lexes x.write x.kinds x.Quotes := by
  cases x with
  | literal value =>
    by_cases hs : ∃ text, value = .string text
    · obtain ⟨text, rfl⟩ := hs
      refine ⟨.string, (lexes_string text).congr ⟨fun hq text' ht => ?_, fun hq => hq text rfl⟩⟩
      simp only [Operand.literal.injEq, Literal.string.injEq] at ht
      exact ht ▸ hq
    · have hs : ∀ text, value ≠ .string text := fun text ht => hs ⟨text, ht⟩
      have hw : value.Written value.render.toList := by
        cases value with
        | string text => exact absurd rfl (hs text)
        | _ => exact h
      obtain ⟨ks, hl, hsp⟩ := spelled_literal listed hs hw
      obtain ⟨hk, hl⟩ := kinds_eq (by simpa using hs) hl
      exact ⟨hk ▸ hsp, hl⟩
  | identifier name =>
    rcases h with ⟨hw, hn, hg⟩ | ⟨hlisted, hm, hp⟩
    · have hl := lexes_name hw (by rwa [String.ofList_toList])
      rw [String.ofList_toList] at hl
      obtain ⟨hk, hl⟩ := kinds_eq (by simp) (x := .identifier name) hl
      exact ⟨hk ▸ .name hw.minus_not_mem hg, hl⟩
    · have hl := lexes_symbol hm (by rwa [String.ofList_toList])
      rw [String.ofList_toList] at hl
      obtain ⟨hk, hl⟩ := kinds_eq (by simp) (x := .identifier name) hl
      exact ⟨hk ▸ .symbol hlisted hm hp, hl⟩

end Operand

/-! ## Operators -/

namespace Operator

/-- The kind of the token that an operator is written as. -/
def kind (op : Operator) : Token.Kind :=
  if standard.symbols.contains op.symbol.toList then .operator op.symbol else .identifier op.symbol

theorem lexes_symbol {op : Operator} (h : op ∈ OperatorTable.standard.tiers.flatten)
    (hc : op ≠ .comma) : Lexes op.symbol.toList [op.kind] True := by
  have hsym : ∀ op ∈ OperatorTable.standard.tiers.flatten, op ≠ .comma →
      op.symbol ∉ ["(", ")", ","] := by decide
  have hword : ∀ op ∈ OperatorTable.standard.tiers.flatten,
      ¬ standard.symbols.contains op.symbol.toList = true → op.symbol.toList ≠ [] ∧
        (∀ c ∈ op.symbol.toList, Plain c) ∧
        (∀ c ∈ op.symbol.toList.head?, standard.isQuote c = false) ∧
        (Literal.ofWord? op.symbol).isNone = true := by decide +kernel
  unfold kind
  split
  · rename_i hs
    have hl := WhereClause.lexes_symbol (List.contains_iff_mem.1 hs) (by
      rw [String.ofList_toList]
      exact hsym op h hc)
    rwa [String.ofList_toList] at hl
  · rename_i hs
    obtain ⟨hne, hp, hq, hn⟩ := hword op h hs
    have hl := lexes_name (isWord_of_plain hne hp hq) (by
      rw [String.ofList_toList]
      exact Option.isNone_iff_eq_none.1 hn)
    rwa [String.ofList_toList] at hl

end Operator

/-! ## Trees -/

namespace Expr

/-- Kinds of tokens in parentheses. -/
def enclosed (ks : List Token.Kind) : List Token.Kind :=
  .punctuation '(' :: ks ++ [.punctuation ')']

/-- Kinds of tokens with commas between them. -/
def separated : List (List Token.Kind) → List Token.Kind
  | [] => []
  | [x] => x
  | x :: y :: rest => x ++ .punctuation ',' :: separated (y :: rest)

/-- Kinds of tokens around, after or between an operator. -/
def operationKinds (op : Operator) : List (List Token.Kind) → List Token.Kind
  | [x] => op.kind :: x
  | [x, y] => x ++ op.kind :: y
  | [x, low, high] => x ++ op.kind :: low ++ Operator.and.kind :: high
  | operands => op.kind :: operands.flatten

mutual

/-- The kinds of the tokens that stand for a tree in its text. -/
def kinds : Expr → List Token.Kind
  | .operand x => x.kinds
  | .list items => enclosed (separated (kindsAll items))
  | .operation op operands => operationKinds op (kindsAll operands)

/-- The kinds of the tokens of each tree inside of another one. -/
def kindsAll : List Expr → List (List Token.Kind)
  | [] => []
  | .operation op operands :: rest => enclosed (kinds (.operation op operands)) :: kindsAll rest
  | e :: rest => kinds e :: kindsAll rest

end

/-- The characters of an expression inside of another one. -/
def writeInner (e : Expr) : List Char :=
  if e.operator?.isSome then Text.parenthesized e.write else e.write

/-- The kinds of the tokens of an expression inside of another one. -/
def innerKinds (e : Expr) : List Token.Kind :=
  if e.operator?.isSome then enclosed e.kinds else e.kinds

theorem writeAll_eq (es : List Expr) : writeAll es = es.map writeInner := by
  induction es with
  | nil => rfl
  | cons e rest ih =>
    cases e <;> simp only [writeAll, ih, List.map_cons] <;> rfl

theorem kindsAll_eq (es : List Expr) : kindsAll es = es.map innerKinds := by
  induction es with
  | nil => rfl
  | cons e rest ih =>
    cases e <;> simp only [kindsAll, ih, List.map_cons] <;> rfl

theorem write_list (items : List Expr) :
    (Expr.list items).write =
      Text.parenthesized (Text.joinWith [',', ' '] (items.map writeInner)) := by
  rw [write, writeAll_eq]

theorem write_operation (op : Operator) (operands : List Expr) :
    (Expr.operation op operands).write = writeOperation op (operands.map writeInner) := by
  rw [write, writeAll_eq]

theorem kinds_list (items : List Expr) :
    (Expr.list items).kinds = enclosed (separated (items.map innerKinds)) := by
  rw [kinds, kindsAll_eq]

theorem kinds_operation (op : Operator) (operands : List Expr) :
    (Expr.operation op operands).kinds = operationKinds op (operands.map innerKinds) := by
  rw [kinds, kindsAll_eq]

/-- All strings of the tree are read back. -/
def Quotes (e : Expr) : Prop :=
  ∀ x ∈ e.leaves, x.Quotes

theorem ends_cons {c : Char} (h : standard.isDelimiter c = true ∨ Mark c) (text : List Char) :
    Ends (c :: text) := by
  intro d hd
  rw [List.head?_cons, Option.mem_some_iff] at hd
  exact hd ▸ h

theorem lexes_parenthesized (h : Lexes text ks good) :
    Lexes (Text.parenthesized text) (enclosed ks) good := by
  have hopen : Cuts ['('] [.punctuation '('] := cuts_single (by decide) (by decide)
  have hclose : Cuts [')'] [.punctuation ')'] := cuts_single (by decide) (by decide)
  have hl := h.append hclose.lexes fun rest _ => ends_cons (.inr (by decide)) rest
  exact (hopen.append_lexes hl).congr (and_iff_left trivial)

/-- A comma and a blank are cut off, whatever stands before them. -/
theorem Lexes.comma (h : Lexes text ks good) (h' : Lexes text' ks' good') :
    Lexes (text ++ [',', ' '] ++ text') (ks ++ .punctuation ',' :: ks') (good ∧ good') := by
  have hcomma : Cuts [','] [.punctuation ','] := cuts_single (by decide) (by decide)
  rw [List.append_assoc]
  exact h.append ((hcomma.append cuts_blank).append_lexes h') fun rest _ =>
    ends_cons (.inr (by decide)) _

theorem lexes_join (es : List Expr) (h : ∀ e ∈ es, Lexes e.writeInner e.innerKinds e.Quotes) :
    Lexes (Text.joinWith [',', ' '] (es.map writeInner)) (separated (es.map innerKinds))
      (∀ e ∈ es, e.Quotes) := by
  match es with
  | [] => exact (Cuts.lexes fun offset rest => ⟨offset, rfl⟩).congr (by simp)
  | [e] => exact (h e (by simp)).congr (by simp)
  | e :: e' :: rest =>
    have hrest := lexes_join (e' :: rest) fun x hx => h x (by simp [hx])
    exact (Lexes.comma (h e (by simp)) hrest).congr List.forall_mem_cons.symm

/-- An operator between blanks is cut off, whatever stands before it. -/
theorem Lexes.operator {op : Operator} (hop : op ∈ OperatorTable.standard.tiers.flatten)
    (hc : op ≠ .comma) (h : Lexes text ks good) (h' : Lexes text' ks' good') :
    Lexes (text ++ ' ' :: op.symbol.toList ++ ' ' :: text') (ks ++ op.kind :: ks')
      (good ∧ good') := by
  have hcut := cuts_blank.append (Operator.lexes_symbol hop hc).cuts
  have hl := h.append (hcut.append_lexes h') fun rest _ => ends_cons (.inl (by decide)) _
  simpa using hl

theorem lexes_operation {op : Operator} (hop : op ∈ OperatorTable.standard.tiers.flatten)
    (hc : op ≠ .comma) {es : List Expr} (hlen : es.length = op.arity.count)
    (h : ∀ e ∈ es, Lexes e.writeInner e.innerKinds e.Quotes) :
    Lexes (writeOperation op (es.map writeInner)) (operationKinds op (es.map innerKinds))
      (∀ e ∈ es, e.Quotes) := by
  have hcount : op.arity.count ≤ 3 ∧ 0 < op.arity.count := by
    cases op.arity <;> decide
  match es with
  | [] =>
    simp at hlen
    omega
  | [x] =>
    have hx := (Operator.lexes_symbol hop hc).cuts.append_lexes (h x (by simp))
    simpa [writeOperation, operationKinds] using hx
  | [x, y] =>
    have hxy := Lexes.operator hop hc (h x (by simp)) (h y (by simp))
    simpa [writeOperation, operationKinds] using hxy
  | [x, low, high] =>
    have hand : Operator.and ∈ OperatorTable.standard.tiers.flatten := by decide
    have htext : " AND ".toList = ' ' :: Operator.and.symbol.toList ++ [' '] := by decide
    have hxlow := Lexes.operator hop hc (h x (by simp)) (h low (by simp))
    have hall := Lexes.operator hand (by decide) hxlow (h high (by simp))
    simp only [List.map_cons, List.map_nil, writeOperation, operationKinds, htext]
    simpa [and_assoc] using hall
  | _ :: _ :: _ :: _ :: _ =>
    simp at hlen
    omega

theorem lexes_inner {e : Expr} (h : Lexes e.write e.kinds good) :
    Lexes e.writeInner e.innerKinds good := by
  unfold writeInner innerKinds
  split
  · exact lexes_parenthesized h
  · exact h

theorem quotes_list (items : List Expr) : (Expr.list items).Quotes ↔ ∀ e ∈ items, e.Quotes := by
  simp only [Quotes, leaves_list, List.mem_flatMap]
  exact ⟨fun h e he x hx => h x ⟨e, he, hx⟩, fun h x ⟨e, he, hx⟩ => h e he x hx⟩

theorem quotes_operation (op : Operator) (operands : List Expr) :
    (Expr.operation op operands).Quotes ↔ ∀ e ∈ operands, e.Quotes := by
  simp only [Quotes, leaves_operation, List.mem_flatMap]
  exact ⟨fun h e he x hx => h x ⟨e, he, hx⟩, fun h x ⟨e, he, hx⟩ => h e he x hx⟩

/-- The text of a tree is cut into the tokens of the tree, or its strings differ. -/
theorem lexes_write {listed : Bool} {e : Expr} (h : Shaped Operand.Readable listed e) :
    Lexes e.write e.kinds e.Quotes := by
  induction h with
  | @operand _ x hx =>
    rw [write, kinds]
    exact (Operand.spelled hx).2.congr (by simp [Quotes, leaves])
  | @list _ items _ _ _ ih =>
    rw [write_list, kinds_list]
    exact (lexes_parenthesized (lexes_join items fun e he => lexes_inner (ih e he))).congr
      (quotes_list items).symm
  | @isIn _ x items _ _ ihx ihy =>
    rw [write_operation, kinds_operation]
    refine (lexes_operation (by decide) (by decide) rfl ?_).congr (quotes_operation _ _).symm
    exact List.forall_mem_cons.2 ⟨lexes_inner ihx, by simpa using lexes_inner ihy⟩
  | operation hm _ hc hlen _ ih =>
    rw [write_operation, kinds_operation]
    exact (lexes_operation hm hc hlen fun e he => lexes_inner (ih e he)).congr
      (quotes_operation _ _).symm

/-! ## Strings and names among the tokens -/

section Silent

variable {β : Type} {f : Token.Kind → Option β}

theorem filterMap_separated (hp : ∀ mark, f (.punctuation mark) = none)
    (xs : List (List Token.Kind)) :
    (separated xs).filterMap f = xs.flatMap (List.filterMap f) := by
  match xs with
  | [] => rfl
  | [x] => simp [separated]
  | x :: y :: rest =>
    rw [separated, List.filterMap_append, List.filterMap_cons_none (hp _),
      filterMap_separated hp (y :: rest)]
    rfl

theorem filterMap_operationKinds {op : Operator} (hop : f op.kind = none)
    (hand : f Operator.and.kind = none) (xs : List (List Token.Kind)) :
    (operationKinds op xs).filterMap f = xs.flatMap (List.filterMap f) := by
  unfold operationKinds
  split <;> simp [List.filterMap_cons_none, hop, hand, List.filterMap_flatten, List.flatMap]

theorem filterMap_innerKinds (hp : ∀ mark, f (.punctuation mark) = none) (e : Expr) :
    e.innerKinds.filterMap f = e.kinds.filterMap f := by
  unfold innerKinds enclosed
  split <;> simp [List.filterMap_cons_none, hp]

/-- What is said of tokens that are neither parentheses, commas nor operators is said of the tokens
of the leaves. -/
theorem filterMap_kinds (hp : ∀ mark, f (.punctuation mark) = none)
    (hop : ∀ op ∈ OperatorTable.standard.tiers.flatten, f op.kind = none)
    {P : Bool → Operand → Prop} {listed : Bool} {e : Expr} (h : Shaped P listed e) :
    e.kinds.filterMap f = e.leaves.flatMap fun x => x.kinds.filterMap f := by
  have hall {es : List Expr} (ih : ∀ e ∈ es,
      e.kinds.filterMap f = e.leaves.flatMap fun x => x.kinds.filterMap f) :
      (es.map innerKinds).flatMap (List.filterMap f) =
        (es.flatMap leaves).flatMap fun x => x.kinds.filterMap f := by
    rw [List.flatMap_map, List.flatMap_assoc, List.flatMap_def, List.flatMap_def]
    congr 1
    exact List.map_congr_left fun e he => by rw [filterMap_innerKinds hp, ih e he]
  have hand := hop .and (by decide)
  induction h with
  | operand => simp [kinds, leaves]
  | list _ _ _ ih =>
    rw [kinds_list, leaves_list, enclosed, ← hall ih, ← filterMap_separated hp]
    simp [List.filterMap_cons_none, hp]
  | isIn _ _ ihx ihy =>
    rw [kinds_operation, leaves_operation, filterMap_operationKinds (hop _ (by decide)) hand]
    exact hall (List.forall_mem_cons.2 ⟨ihx, by simpa using ihy⟩)
  | operation hm _ _ _ _ ih =>
    rw [kinds_operation, leaves_operation, filterMap_operationKinds (hop _ hm) hand]
    exact hall ih

end Silent

end Expr

namespace Operand

/-- The string that an operand is. -/
def string? : Operand → Option String
  | .literal (.string text) => some text
  | _ => none

/-- The name that an operand is, if it is no operator. -/
def name? : Operand → Option String
  | .identifier name => if OperatorTable.standard.get? name = none then some name else none
  | _ => none

/-- The operand has no minus in its text, unless it is a string or the minus comes first. -/
def Whole (x : Operand) : Prop :=
  x.string? = none → '-' ∉ x.write.tail

instance (x : Operand) : Decidable x.Whole :=
  inferInstanceAs (Decidable (_ → _))

theorem string?_literal {value : Literal} (h : ∀ text, value ≠ .string text) :
    (Operand.literal value).string? = none ∧
      ∀ quote, Token.Kind.string? (.literal value quote) = none := by
  cases value with
  | string text => exact absurd rfl (h text)
  | _ => exact ⟨rfl, fun _ => rfl⟩

theorem ne_string_of_negated? {v v' : Literal} (h : v.negated? = some v') :
    ∀ text, v ≠ .string text := by
  rintro text rfl
  cases h

/-- The strings among the tokens of a leaf. -/
theorem Spelled.strings {listed : Bool} {x : Operand} {ks : List Token.Kind}
    (h : Spelled listed x ks) : ks.filterMap Token.Kind.string? = x.string?.toList := by
  cases h with
  | string => rfl
  | plain hs hv =>
    rw [(string?_literal hs).1, List.filterMap_cons_none ((string?_literal hv).2 none)]
    rfl
  | signed hs hn =>
    have hv := (string?_literal (ne_string_of_negated? hn)).2 none
    rw [(string?_literal hs).1, List.filterMap_cons_none rfl, List.filterMap_cons_none hv]
    rfl
  | broken sign hs hsign _ hk =>
    rw [(string?_literal hs).1]
    rcases hsign with rfl | rfl <;>
      simp [List.filterMap_cons_none, Token.Kind.string?.eq_2, hk]
  | name => rfl
  | symbol => rfl

/-- The symbols that may be names in a list are operators. -/
theorem get?_symbol {name : String} (hm : name.toList ∈ standard.symbols)
    (hmark : name ∉ ["(", ")", ","]) : OperatorTable.standard.get? name ≠ none := by
  have hsym : ∀ s ∈ standard.symbols, String.ofList s ∉ ["(", ")", ","] →
      OperatorTable.standard.get? (String.ofList s) ≠ none := by decide +kernel
  have h := hsym _ hm
  rw [String.ofList_toList] at h
  exact h hmark

/-- The tokens of a leaf have at least as many names as the leaf, and more if its text falls into
parts. -/
theorem Spelled.names {listed : Bool} {x : Operand} {ks : List Token.Kind}
    (h : Spelled listed x ks) :
    x.name?.toList.length ≤ (ks.filterMap Token.Kind.name?).length ∧
      ((ks.filterMap Token.Kind.name?).length ≤ x.name?.toList.length → x.Whole) := by
  cases h with
  | string => exact ⟨Nat.zero_le _, fun _ hs => by cases hs⟩
  | plain _ _ _ hm => exact ⟨Nat.zero_le _, fun _ _ hmem => hm (List.mem_of_mem_tail hmem)⟩
  | signed _ _ _ _ hm => exact ⟨Nat.zero_le _, fun _ _ => hm⟩
  | @broken value name k sign _ hsign hg =>
    refine ⟨Nat.zero_le _, fun hle => ?_⟩
    have hpos : 0 < ((sign ++ [.identifier name, .operator "-", k]).filterMap
        Token.Kind.name?).length := by
      rw [List.filterMap_append,
        List.filterMap_cons_some (b := name) (by simp [Token.Kind.name?, hg]),
        List.length_append, List.length_cons]
      omega
    have hzero : (Operand.literal value).name?.toList.length = 0 := rfl
    omega
  | @name name hm _ =>
    refine ⟨?_, fun _ _ hmem => hm (List.mem_of_mem_tail hmem)⟩
    by_cases hg : OperatorTable.standard.get? name = none <;> simp [name?, Token.Kind.name?, hg]
  | @symbol name _ hm hmark =>
    have htail : ∀ s ∈ standard.symbols, '-' ∉ s.tail := by decide
    exact ⟨by simp [name?, get?_symbol hm hmark], fun _ _ => htail _ hm⟩

end Operand

namespace Expr

variable {listed : Bool} {e : Expr}

theorem strings_kinds (h : Shaped Operand.Readable listed e) :
    e.kinds.filterMap Token.Kind.string? = e.leaves.filterMap Operand.string? := by
  have hop : ∀ op ∈ OperatorTable.standard.tiers.flatten, op.kind.string? = none := by
    intro op _
    unfold Operator.kind
    split <;> rfl
  rw [filterMap_kinds (fun _ => rfl) hop h]
  have hleaf := h.leaf
  generalize e.leaves = xs at hleaf
  induction xs with
  | nil => rfl
  | cons x rest ih =>
    obtain ⟨l, hx⟩ := hleaf x (by simp)
    rw [List.flatMap_cons, (Operand.spelled hx).1.strings, ih fun y hy => hleaf y (by simp [hy])]
    cases hs : x.string? <;> simp [hs]

theorem names_le {xs : List Operand} (h : ∀ x ∈ xs, ∃ l, x.Readable l) :
    (xs.filterMap Operand.name?).length ≤
        (xs.flatMap fun x => x.kinds.filterMap Token.Kind.name?).length ∧
      ((xs.flatMap fun x => x.kinds.filterMap Token.Kind.name?).length ≤
        (xs.filterMap Operand.name?).length → ∀ x ∈ xs, x.Whole) := by
  induction xs with
  | nil => simp
  | cons x rest ih =>
    obtain ⟨l, hx⟩ := h x (by simp)
    obtain ⟨hle, hwhole⟩ := (Operand.spelled hx).1.names
    obtain ⟨hle', hwhole'⟩ := ih fun y hy => h y (by simp [hy])
    have hlen : ((x :: rest).filterMap Operand.name?).length =
        x.name?.toList.length + (rest.filterMap Operand.name?).length := by
      cases hn : x.name? <;> simp [hn, Nat.add_comm]
    rw [hlen, List.flatMap_cons, List.length_append]
    refine ⟨by omega, fun hge => List.forall_mem_cons.2 ⟨hwhole (by omega), hwhole' (by omega)⟩⟩

/-- The tokens of a tree have no more names than the tree only if no leaf falls into parts. -/
theorem whole_of_names (h : Shaped Operand.Readable listed e)
    (hle : (e.kinds.filterMap Token.Kind.name?).length ≤
      (e.leaves.filterMap Operand.name?).length) : ∀ x ∈ e.leaves, x.Whole := by
  have hop : ∀ op ∈ OperatorTable.standard.tiers.flatten, op.kind.name? = none := by
    decide +kernel
  rw [filterMap_kinds (fun _ => rfl) hop h] at hle
  exact (names_le h.leaf).2 hle

end Expr

end WhereClause
