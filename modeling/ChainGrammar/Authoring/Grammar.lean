import ChainGrammar.Authoring.Edit
import ChainGrammar.Tree.OfRules

/-!
# Grammars and cursors

A grammar collects rules until it is compiled.  Rules are written through a cursor, and a grammar has
one writer at a time: opening a rule hands out a ticket, which the grammar remembers as its writer
and the cursor carries along, and only the cursor with that ticket may write.  Closing the cursor,
dropping it, or an edit that fails gives the ticket back.  The first attempt to compile while nobody
writes freezes the grammar for good, whether it succeeds or not.
-/

set_option autoImplicit false

namespace ChainGrammar

/-- A set of rules in the making. -/
structure Grammar where
  description : String := "Fluent Builder"
  rules : List Rule := []
  options : Options := .initial
  frozen : Bool := false
  /-- The ticket of the open cursor. -/
  writer : Option Nat := none
  nextTicket : Nat := 0
  deriving DecidableEq, Inhabited

/-- A position in an open rule. -/
structure Cursor where
  ticket : Nat
  /-- The position of the open rule among the rules. -/
  rule : Nat
  kind : CursorKind
  /-- The position of the last symbol or reference in the open definition. -/
  anchor : Option Nat
  deriving DecidableEq, Inhabited

/-- May the edit be made at the cursor?  A mark also needs a segment that it can change. -/
def Cursor.admits (cursor : Cursor) (edit : Edit) : Bool :=
  edit.isAllowedAfter cursor.kind && (!edit.isMark || cursor.anchor.isSome)

/-- Why a grammar could not be compiled. -/
inductive BuildError where
  | authoring (error : AuthoringError)
  | rules (error : RuleError)
  deriving DecidableEq, Inhabited

namespace Segment

/-- The segment with the permission to be left out. -/
def markOptional : Segment → Segment
  | .symbol name params _ => .symbol name params true
  | .reference rule _ repeats => .reference rule true repeats
  | other => other

/-- The reference with another repetition. -/
def markRepeated (repeats : Repeat) : Segment → Segment
  | .reference rule optional _ => .reference rule optional repeats
  | other => other

end Segment

namespace Grammar

/-- May the holder of the ticket, or with no ticket anyone, change the grammar now? -/
def checkWritable (grammar : Grammar) (ticket : Option Nat) : Except AuthoringError Unit :=
  if grammar.frozen then .error .frozen
  else if grammar.writer != ticket then .error .concurrentAuthoring
  else .ok ()

/-- Add a rule at the end, with one empty definition. -/
def addRule (grammar : Grammar) (name : String) : Except AuthoringError Grammar :=
  if (Rules.find? grammar.rules name).isSome then .error (.duplicateRule name)
  else .ok { grammar with rules := grammar.rules ++ [Rule.opened name] }

/-- The cursor on the rule that was added last. -/
def headCursor (grammar : Grammar) (ticket : Nat) : Cursor :=
  ⟨ticket, grammar.rules.length - 1, .rule, none⟩

/-- Replace the options. -/
def setOptions (grammar : Grammar) (options : Options) : Except AuthoringError Grammar := do
  grammar.checkWritable none
  return { grammar with options }

/-- Name the main rule. -/
def setMainRule (grammar : Grammar) (name : String) : Except AuthoringError Grammar := do
  grammar.checkWritable none
  return { grammar with options := grammar.options.withMainRule name }

/-- Open a new rule and a cursor on it. -/
def openRule (grammar : Grammar) (name : String) : Except AuthoringError (Grammar × Cursor) := do
  grammar.checkWritable none
  let grown ← grammar.addRule name
  let ticket := grammar.nextTicket
  return ({ grown with writer := some ticket, nextTicket := ticket + 1 }, grown.headCursor ticket)

/-- Give back the ticket of a cursor. -/
def release (grammar : Grammar) (cursor : Cursor) : Grammar :=
  if grammar.writer == some cursor.ticket then { grammar with writer := none } else grammar

/-- Change the rule of a cursor. -/
def changeRule (grammar : Grammar) (cursor : Cursor) (change : Rule → Rule) : Grammar :=
  { grammar with rules := grammar.rules.modify cursor.rule change }

/-- The definition that a cursor writes to. -/
def openDefinition (grammar : Grammar) (cursor : Cursor) : Definition :=
  ((grammar.rules[cursor.rule]?).bind fun rule => rule.definitions.getLast?).getD []

/-- Append a segment to the open definition. -/
def append (grammar : Grammar) (cursor : Cursor) (segment : Segment) : Grammar :=
  grammar.changeRule cursor fun rule => rule.changeOpenDefinition (· ++ [segment])

/-- Change the last symbol or reference of the open definition. -/
def changeAnchor (grammar : Grammar) (cursor : Cursor) (change : Segment → Segment) : Grammar :=
  match cursor.anchor with
  | none => grammar
  | some anchor =>
    grammar.changeRule cursor fun rule => rule.changeOpenDefinition (·.modify anchor change)

/-- The effect of an edit that is in its place: the new grammar, and the cursor unless it closes. -/
def perform (grammar : Grammar) (cursor : Cursor) :
    Edit → Except AuthoringError (Grammar × Option Cursor)
  | .symbol name params =>
    .ok (grammar.append cursor (.symbol name params false),
      some { cursor with kind := .symbol, anchor := some (grammar.openDefinition cursor).length })
  | .reference rule =>
    .ok (grammar.append cursor (.reference rule false .once),
      some { cursor with kind := .reference, anchor := some (grammar.openDefinition cursor).length })
  | .parameter name =>
    .ok (grammar.append cursor (.parameter name), some { cursor with kind := .parameter })
  | .value => .ok (grammar.append cursor .value, some { cursor with kind := .value })
  | .optional => .ok (grammar.changeAnchor cursor Segment.markOptional, some cursor)
  | .repeated count =>
    .ok (grammar.changeAnchor cursor (Segment.markRepeated (Repeat.ofCount count)), some cursor)
  | .alternative =>
    .ok (grammar.changeRule cursor Rule.openDefinition,
      some { cursor with kind := .alternation, anchor := none })
  | .rule name => do
    let grown ← grammar.addRule name
    return (grown, some (grown.headCursor cursor.ticket))
  | .finish => .ok ({ grammar with writer := none }, none)

/-- Check an edit and perform it. -/
def attempt (grammar : Grammar) (cursor : Cursor) (edit : Edit) :
    Except AuthoringError (Grammar × Option Cursor) := do
  grammar.checkWritable (some cursor.ticket)
  if cursor.admits edit then grammar.perform cursor edit
  else .error (.invalidSequence edit.name cursor.kind)

/-- Edit at a cursor, which is used up: on success the answer holds the next cursor unless the edit
closed it, on failure the ticket is given back and nothing else changes. -/
def edit (grammar : Grammar) (cursor : Cursor) (edit : Edit) :
    Grammar × Except AuthoringError (Option Cursor) :=
  match grammar.attempt cursor edit with
  | .ok (grammar, next) => (grammar, .ok next)
  | .error error => (grammar.release cursor, .error error)

/-- Compile the rules; this freezes the grammar unless somebody writes. -/
def compile (grammar : Grammar) : Grammar × Except BuildError Tree :=
  if grammar.writer.isSome then (grammar, .error (.authoring .concurrentAuthoring))
  else
    ({ grammar with frozen := true },
      match Tree.ofRules grammar.rules grammar.options with
      | .ok tree => .ok tree
      | .error error => .error (.rules error))

/-- The description, then one indented line for each rule. -/
def text (grammar : Grammar) : String :=
  grammar.description ++ String.join (grammar.rules.map fun rule => "\n  " ++ rule.text)

end Grammar

end ChainGrammar
