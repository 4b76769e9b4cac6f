import WhereClause.Config.Json
import WhereClause.Proofs.Json.Laws
import WhereClause.Proofs.Json.Strict

/-!
# Configurations that are written and read back

A configuration may hold anything: empty tiers, names of any characters, the same symbol twice. Its
JSON text still says all of it, whatever library writes and reads the text: the codecs of its parts
are faithful, and no field is left to its standard value since all of them are written.
-/

namespace WhereClause

open Json (Codec Field Library)

/-! ## The codecs of the parts -/

section Codecs

variable {library : Library} (lawful : library.Lawful)
include lawful

theorem Arity.faithful_codec (n : Nat) : (codec library).Faithful n :=
  lawful.faithful_conversion (lawful.faithful_byte n) fun arity => by
    have hcount : (UInt8.ofNat arity.count).toNat = arity.count := by cases arity <;> rfl
    rw [hcount, ofCount_count]

theorem LexicalRules.faithful_codec (n : Nat) : (codec library).Faithful (n + 2) := by
  have htexts := lawful.faithful_list (lawful.faithful_text n)
  have hchars := lawful.faithful_list (lawful.faithful_char n)
  have hnames : ["symbols", "quotes", "delimiters"].Nodup := by decide
  refine lawful.faithful_record hnames (fun rules => ?_) fun field hfield rules => ?_
  · simp only [List.foldlM_cons, List.foldlM_nil, Field.read?_of htexts, Field.read?_of hchars,
      Option.bind_eq_bind, Option.bind_some]
    -- all fields are set, so nothing of the standard rules is left
    rfl
  · simp only [List.mem_cons, List.not_mem_nil, or_false] at hfield
    rcases hfield with rfl | rfl | rfl
    · exact htexts.within rules.symbols
    · exact hchars.within rules.quotes
    · exact hchars.within rules.delimiters

theorem Config.faithful_codec (n : Nat) : (codec library).Faithful (n + 3) := by
  have htiers := lawful.faithful_list (lawful.faithful_tier (Arity.faithful_codec lawful n))
  have hrules := LexicalRules.faithful_codec lawful n
  have hnames : ["operators", "tokenizer"].Nodup := by decide
  refine lawful.faithful_record hnames (fun config => ?_) fun field hfield config => ?_
  · simp only [List.foldlM_cons, List.foldlM_nil, Field.read?_of htiers, Field.read?_of hrules,
      Option.bind_eq_bind, Option.bind_some]
    rfl
  · simp only [List.mem_cons, List.not_mem_nil, or_false] at hfield
    rcases hfield with rfl | rfl
    · exact htiers.within config.tiers
    · exact hrules.within config.rules

end Codecs

/-! ## The text of a configuration -/

namespace Config

/-- A configuration is read back from any text of its document, also with blanks or with other
escapes, and so from the text that the library writes. -/
theorem read_write {library : Library} (lawful : library.Lawful) (config : Config) :
    (∀ text, library.parse? text = some ((codec library).write config) →
      read library text = .ok config) ∧
      read library (write library config) = .ok config := by
  -- the three layers of a configuration are within the limit on nesting
  have hcodec := faithful_codec lawful 124
  have htext (text : String) (h : library.parse? text = some ((codec library).write config)) :
      read library text = .ok config := by
    rw [read, h, Option.bind_some, hcodec.read?_write]
  exact ⟨htext, htext _ (lawful.parse?_print _ (hcodec.within config))⟩

/-- A blank line before the text makes no difference. The empty tier stays empty, and so do the
symbols and the delimiters. -/
theorem read_after_blank_line :
    read .strict ("\n" ++ write .strict ⟨[.empty, .ofList [("ß", .binary)]], ⟨[], ['\''], []⟩⟩) =
      .ok ⟨[.empty, .ofList [("ß", .binary)]], ⟨[], ['\''], []⟩⟩ :=
  (read_write Library.strict_lawful _).1 _ (Json.Document.read?_blank_line _)

end Config

end WhereClause
