/-!
# Options of a grammar

How deep recursive references may nest in a chain, and which rule comes first.
-/

set_option autoImplicit false

namespace ChainGrammar

/-- Settings that shape the chains of a grammar. -/
structure Options where
  /-- How many recursive references may be open at a position. -/
  maxDepth : Nat
  /-- The rule that becomes the first entry point. -/
  mainRule : Option String
  maxDepth_pos : 0 < maxDepth
  deriving DecidableEq

namespace Options

/-- The settings of a new grammar: sixty-four levels and no main rule. -/
def initial : Options := ⟨64, none, by decide⟩

instance : Inhabited Options := ⟨initial⟩

/-- Set the nesting limit; a limit of zero is raised to one. -/
def withMaxDepth (options : Options) (depth : Nat) : Options where
  maxDepth := max depth 1
  mainRule := options.mainRule
  maxDepth_pos := by omega

/-- Name the rule that becomes the first entry point. -/
def withMainRule (options : Options) (name : String) : Options :=
  { options with mainRule := some name }

end Options

end ChainGrammar
