import ChainGrammar.Repeat

/-!
# Segments of a definition

A definition is a list of segments: symbols, which become methods, references to rules, and the
declared arguments that follow a symbol.
-/

set_option autoImplicit false

namespace ChainGrammar

/-- One element of a rule definition. -/
inductive Segment where
  /-- A terminal, which becomes one method. -/
  | symbol (name : String) (params : List String) (optional : Bool)
  /-- A use of another rule. -/
  | reference (rule : String) (optional : Bool) (repeats : Repeat)
  /-- A named argument of the nearest symbol before it. -/
  | parameter (name : String)
  /-- A positional argument of the nearest symbol before it. -/
  | value
  /-- The mark between two definitions of one rule. -/
  | alternation
  deriving DecidableEq, Inhabited

namespace Segment

/-- The rule that a reference names. -/
def target? : Segment → Option String
  | .reference rule _ _ => some rule
  | _ => none

/-- May the segment be left out? -/
def isOptional : Segment → Bool
  | .symbol _ _ optional => optional
  | .reference _ optional _ => optional
  | _ => false

/-- Symbols and references, the segments that later marks and arguments refer to. -/
def isAnchor : Segment → Bool
  | .symbol .. => true
  | .reference .. => true
  | _ => false

/-- Names between parentheses, or nothing where there are none. -/
def listedNames (names : List String) : String :=
  if names.isEmpty then "" else "(" ++ String.intercalate ", " names ++ ")"

/-- The mark behind a segment that may be left out. -/
def optionalMark (optional : Bool) : String := if optional then "?" else ""

/-- The text of a segment. -/
def text : Segment → String
  | .symbol name params optional => name ++ listedNames params ++ optionalMark optional
  | .reference rule optional repeats => "<" ++ rule ++ ">" ++ repeats.mark ++ optionalMark optional
  | .parameter name => ":" ++ name
  | .value => ":value"
  | .alternation => "|"

end Segment

end ChainGrammar
