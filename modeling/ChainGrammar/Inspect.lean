import ChainGrammar.Authoring.Grammar
import ChainGrammar.Chain.Basic
import ChainGrammar.Text.Record

/-!
# Inspecting grammars, APIs and chains

Their parts in record notation.
-/

set_option autoImplicit false

namespace ChainGrammar

open Text (listed quote record truth)

/-- A repetition in record notation. -/
def Repeat.inspect : Repeat → String
  | .once => "Once"
  | .times limit => "Times(" ++ toString limit.toNat ++ ")"
  | .unbounded => "Unbounded"

/-- A segment in record notation. -/
def Segment.inspect : Segment → String
  | .symbol name params optional =>
    record "Symbol" [("name", quote name), ("params", listed (params.map quote)),
      ("optional", truth optional)] false
  | .reference rule optional repeats =>
    record "Reference" [("rule", quote rule), ("optional", truth optional),
      ("repeat", repeats.inspect)] false
  | .parameter name => record "Parameter" [("name", quote name)] false
  | .value => "Value"
  | .alternation => "Alternation"

/-- A rule in record notation. -/
def Rule.inspect (rule : Rule) : String :=
  let definitions := rule.definitions.map fun definition => listed (definition.map Segment.inspect)
  record "Rule" [("name", quote rule.name), ("definitions", listed definitions)] false

/-- A grammar in record notation. -/
def Grammar.inspect (grammar : Grammar) : String :=
  record "Grammar" [("description", quote grammar.description),
    ("rules", listed (grammar.rules.map Rule.inspect)), ("frozen", truth grammar.frozen)] true

/-- An API in record notation. -/
def Api.inspect {σ τ : Type} (api : Api σ τ) : String :=
  record "Fluent" [("entry_points", listed (api.tree.entryNames.map quote)),
    ("nodes", toString api.tree.size)] false

/-- A chain in record notation. -/
def Chain.inspect {σ τ : Type} (chain : Chain σ τ) : String :=
  record "Chain" [("methods", listed (chain.methods.map quote)),
    ("complete", truth chain.isComplete)] true

end ChainGrammar
