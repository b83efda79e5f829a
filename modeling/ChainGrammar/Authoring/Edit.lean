import ChainGrammar.Segment

/-!
# Edits and where they are allowed

Rules are written by a sequence of edits at a cursor.  What the last edit produced decides which
edits may follow:

* symbols and references are always allowed;
* arguments need a symbol or another argument before them;
* a repetition mark needs a reference before it;
* everything else needs some segment before it.
-/

set_option autoImplicit false

namespace ChainGrammar

/-- What the last edit at a cursor produced. -/
inductive CursorKind where
  /-- A freshly opened rule. -/
  | rule
  | symbol
  | reference
  | parameter
  | value
  /-- A freshly opened alternative definition. -/
  | alternation
  deriving DecidableEq, Inhabited

namespace CursorKind

/-- How a cursor is described. -/
def text : CursorKind → String
  | .rule => "a rule head"
  | .symbol => "a symbol"
  | .reference => "a reference"
  | .parameter => "a parameter"
  | .value => "a value"
  | .alternation => "an alternation"

/-- Is the open definition nonempty? -/
def isAfterSegment : CursorKind → Bool
  | .rule | .alternation => false
  | .symbol | .reference | .parameter | .value => true

/-- Does the open definition end in a symbol with its arguments? -/
def isAfterSymbol : CursorKind → Bool
  | .symbol | .parameter | .value => true
  | .rule | .alternation | .reference => false

end CursorKind

/-- One edit at a cursor. -/
inductive Edit where
  /-- Append a symbol. -/
  | symbol (name : String) (params : List String)
  /-- Append a reference to a rule. -/
  | reference (rule : String)
  /-- Declare a named argument of the symbol before. -/
  | parameter (name : String)
  /-- Declare a positional argument of the symbol before. -/
  | value
  /-- Let the symbol or reference before be left out. -/
  | optional
  /-- Let the reference before occur several times in a row; a negative count sets no limit. -/
  | repeated (count : Int64)
  /-- Close the definition and open an alternative one. -/
  | alternative
  /-- Open another rule. -/
  | rule (name : String)
  /-- Close the cursor. -/
  | finish
  deriving DecidableEq, Inhabited

namespace Edit

/-- The name of an edit in error messages. -/
def name : Edit → String
  | .symbol .. => "sym"
  | .reference _ => "reference"
  | .parameter _ => "par"
  | .value => "val"
  | .optional => "optional"
  | .repeated _ => "repeat"
  | .alternative => "or"
  | .rule _ => "rule"
  | .finish => "end"

/-- May the edit follow at a cursor of the given kind? -/
def isAllowedAfter : Edit → CursorKind → Bool
  | .symbol .., _ => true
  | .reference _, _ => true
  | .parameter _, kind => kind.isAfterSymbol
  | .value, kind => kind.isAfterSymbol
  | .repeated _, kind => kind == .reference
  | .optional, kind => kind.isAfterSegment
  | .alternative, kind => kind.isAfterSegment
  | .rule _, kind => kind.isAfterSegment
  | .finish, kind => kind.isAfterSegment

/-- Does the edit change a segment that has been written before? -/
def isMark : Edit → Bool
  | .optional => true
  | .repeated _ => true
  | _ => false

end Edit

/-- Why an edit, or another change of a grammar, is refused. -/
inductive AuthoringError where
  | duplicateRule (name : String)
  /-- The edit of the given name may not follow at a cursor of the given kind. -/
  | invalidSequence (edit : String) (cursor : CursorKind)
  /-- Another cursor is open. -/
  | concurrentAuthoring
  /-- The grammar has been compiled. -/
  | frozen
  deriving DecidableEq, Inhabited

/-- The wording of a refusal. -/
def AuthoringError.message : AuthoringError → String
  | .duplicateRule name => "duplicate rule name '" ++ name ++ "'"
  | .invalidSequence edit cursor => "'" ++ edit ++ "' is not allowed after " ++ cursor.text
  | .concurrentAuthoring => "another authoring chain is open on this grammar"
  | .frozen => "grammar is frozen; it has already been compiled"

end ChainGrammar
