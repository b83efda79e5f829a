import ChainGrammar.Segment

/-!
# Rules

A rule is a name with alternative definitions.  A freshly opened rule has one empty definition.
-/

set_option autoImplicit false

namespace ChainGrammar

/-- One sequence of segments that satisfies a rule. -/
abbrev Definition := List Segment

/-- A named set of alternative definitions. -/
structure Rule where
  name : String
  definitions : List Definition
  deriving DecidableEq, Inhabited

namespace Rule

/-- A rule as it is when it has just been opened. -/
def opened (name : String) : Rule := ⟨name, [[]]⟩

/-- The names of the referenced rules in order of appearance, each once. -/
def references (rule : Rule) : List String :=
  (rule.definitions.flatten.filterMap Segment.target?).eraseDups

/-- Does a definition of the rule reference the rule of the given name? -/
def referencesRule (rule : Rule) (name : String) : Bool :=
  rule.definitions.flatten.any fun segment => segment.target? == some name

/-- All segments, with an alternation mark between definitions. -/
def segments (rule : Rule) : List Segment :=
  (rule.definitions.intersperse [.alternation]).flatten

/-- The text of a rule: its name, then its segments. -/
def text (rule : Rule) : String :=
  rule.name ++ " :=" ++ String.join (rule.segments.map fun segment => " " ++ segment.text)

/-- Change the definition that is open, the last one. -/
def changeOpenDefinition (rule : Rule) (change : Definition → Definition) : Rule :=
  ⟨rule.name, rule.definitions.modify (rule.definitions.length - 1) change⟩

/-- Close the open definition and open an empty one. -/
def openDefinition (rule : Rule) : Rule := ⟨rule.name, rule.definitions ++ [[]]⟩

end Rule

end ChainGrammar
