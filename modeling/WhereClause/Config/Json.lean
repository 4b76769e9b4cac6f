import WhereClause.Config.Basic
import WhereClause.Json.Strict

/-!
# Configurations as JSON

A configuration is written as an object with the members `operators` and `tokenizer`. A member that
is left out has its standard value when a configuration is read; what is there replaces the standard
value as a whole.
-/

namespace WhereClause

open Json (Codec Field Library)

variable (library : Library)

/-- A number of operands is written as a byte. -/
def Arity.codec : Codec library.Document Arity :=
  library.conversion (fun n : UInt8 => ofCount n.toNat) (fun arity => .ofNat arity.count)
    library.byte

/-- Lexical rules are a record of three lists. -/
def LexicalRules.codec : Codec library.Document LexicalRules :=
  library.record standard
    [.of "symbols" (library.list library.text) (·.symbols)
        fun rules symbols => { rules with symbols := symbols },
      .of "quotes" (library.list library.char) (·.quotes)
        fun rules quotes => { rules with quotes := quotes },
      .of "delimiters" (library.list library.char) (·.delimiters)
        fun rules delimiters => { rules with delimiters := delimiters }]

namespace Config

/-- A configuration is a record of the tiers and the lexical rules. -/
def codec : Codec library.Document Config :=
  library.record standard
    [.of "operators" (library.list (library.tier (Arity.codec library))) (·.tiers)
        fun config tiers => { config with tiers := tiers },
      .of "tokenizer" (LexicalRules.codec library) (·.rules)
        fun config rules => { config with rules := rules }]

/-- The JSON text of a configuration. -/
def write (config : Config) : String :=
  library.print ((codec library).write config)

/-- The configuration of a JSON text. -/
def read (text : String) : Except ConfigError Config :=
  match (library.parse? text).bind (codec library).read? with
  | some config => .ok config
  | none => .error .malformedDocument

/-- The text of a configuration in strict JSON. -/
def toJson (config : Config) : String :=
  config.write .strict

/-- The configuration of a text in strict JSON. -/
def ofJson (text : String) : Except ConfigError Config :=
  read .strict text

end Config

end WhereClause
