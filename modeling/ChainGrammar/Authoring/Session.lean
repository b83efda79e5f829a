import ChainGrammar.Authoring.Grammar

/-!
# Authoring sessions

A grammar together with the cursors that are open on it, under any interleaving of what can be done
to them: opening rules, changing options, compiling, editing at a cursor and dropping one.  A build is two of
these in a row, closing a cursor and compiling.  `Session.Reachable` are the states that a fresh grammar can
get to.
-/

set_option autoImplicit false

namespace ChainGrammar

/-- A grammar and its open cursors. -/
structure Session where
  grammar : Grammar
  cursors : List Cursor := []
  deriving DecidableEq, Inhabited

namespace Session

/-- Something done to a grammar or to one of its cursors, which are numbered by their position. -/
inductive Event where
  | openRule (name : String)
  | setOptions (options : Options)
  | setMainRule (name : String)
  | compile
  | edit (cursor : Nat) (edit : Edit)
  | drop (cursor : Nat)
  deriving DecidableEq

/-- Replace the options. -/
def setOptions (session : Session) (options : Options) : Session × Except AuthoringError Unit :=
  match session.grammar.setOptions options with
  | .ok grammar => ({ session with grammar }, .ok ())
  | .error error => (session, .error error)

/-- Name the main rule. -/
def setMainRule (session : Session) (name : String) : Session × Except AuthoringError Unit :=
  match session.grammar.setMainRule name with
  | .ok grammar => ({ session with grammar }, .ok ())
  | .error error => (session, .error error)

/-- Open a rule; its cursor becomes the last one. -/
def openRule (session : Session) (name : String) : Session × Except AuthoringError Cursor :=
  match session.grammar.openRule name with
  | .ok (grammar, cursor) => (⟨grammar, session.cursors ++ [cursor]⟩, .ok cursor)
  | .error error => (session, .error error)

/-- Edit at the cursor of the given number; there is no answer where there is no such cursor. -/
def edit (session : Session) (number : Nat) (edit : Edit) :
    Session × Option (Except AuthoringError (Option Cursor)) :=
  match session.cursors[number]? with
  | none => (session, none)
  | some cursor =>
    match session.grammar.edit cursor edit with
    | (grammar, .ok (some next)) =>
      (⟨grammar, session.cursors.set number next⟩, some (.ok (some next)))
    | (grammar, .ok none) => (⟨grammar, session.cursors.eraseIdx number⟩, some (.ok none))
    | (grammar, .error error) => (⟨grammar, session.cursors.eraseIdx number⟩, some (.error error))

/-- Drop the cursor of the given number; the answer says whether there was one. -/
def drop (session : Session) (number : Nat) : Session × Bool :=
  match session.cursors[number]? with
  | none => (session, false)
  | some cursor =>
    (⟨session.grammar.release cursor, session.cursors.eraseIdx number⟩, true)

/-- Compile the grammar. -/
def compile (session : Session) : Session × Except BuildError Tree :=
  let (grammar, answer) := session.grammar.compile
  ({ session with grammar }, answer)

/-- Close the cursor of the given number and compile; there is no answer where there is no such cursor. -/
def build (session : Session) (number : Nat) : Session × Option (Except BuildError Tree) :=
  match session.edit number .finish with
  | (closed, some (.ok _)) => (closed.compile.1, some closed.compile.2)
  | (lost, some (.error error)) => (lost, some (.error (.authoring error)))
  | (same, none) => (same, none)

/-- The session after an event. -/
def step (session : Session) : Event → Session
  | .openRule name => (session.openRule name).1
  | .setOptions options => (session.setOptions options).1
  | .setMainRule name => (session.setMainRule name).1
  | .compile => session.compile.1
  | .edit number edit => (session.edit number edit).1
  | .drop number => (session.drop number).1

/-- The session after a list of events. -/
def run (session : Session) (events : List Event) : Session := events.foldl step session

/-- A session with nothing written yet. -/
def fresh (description : String) : Session := { grammar := { description } }

/-- The states that a fresh grammar can get to. -/
inductive Reachable : Session → Prop where
  | fresh (description : String) : Reachable (fresh description)
  | step {session : Session} (event : Event) : Reachable session → Reachable (session.step event)

end Session

end ChainGrammar
