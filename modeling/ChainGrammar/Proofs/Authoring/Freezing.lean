import ChainGrammar.Proofs.Authoring.SingleWriter

/-!
# Freezing

An attempt to compile while nobody writes freezes the grammar, whether it succeeds or fails.  In a session
with a frozen grammar nobody writes (`Session.Sound`), so there is nothing left that could change it: every
event leaves the session as it is (`Session.Dormant.step`, `Session.Dormant.run`).  Nothing can be written
any more, and compiling again gives the first answer again (`Session.Reachable.compile_final`).

Building at a cursor leads where closing it and compiling lead (`Session.Reachable.build`).  Behind a segment the
cursor does close, so a build there is such an attempt (`Session.Reachable.frozenSince_build`).
-/

set_option autoImplicit false

namespace ChainGrammar

namespace Session

/-- The grammar is frozen, and nobody writes. -/
structure Dormant (session : Session) : Prop where
  frozen : session.grammar.frozen = true
  nobody : session.cursors = []
  free : session.grammar.writer = none

/-- A later session in which the grammar is as the attempt to compile it found it, and stays so. -/
structure FrozenSince (compiled later : Session) : Prop where
  frozen : later.grammar.frozen = true
  writer : later.grammar.writer = none
  rules : later.grammar.rules = compiled.grammar.rules
  options : later.grammar.options = compiled.grammar.options
  description : later.grammar.description = compiled.grammar.description
  openRule : ∀ name, later.openRule name = (later, .error .frozen)
  setOptions : ∀ options, later.setOptions options = (later, .error .frozen)
  setMainRule : ∀ name, later.setMainRule name = (later, .error .frozen)
  /-- Compiling again changes nothing, and its answer is the first one. -/
  compile : later.compile = (later, compiled.compile.2)

variable {session : Session}

/-- Nobody may change a frozen grammar, so in it no rule can be opened, no options replaced and no main rule
named. -/
theorem Dormant.checkWritable (dormant : session.Dormant) (ticket : Option Nat) :
    session.grammar.checkWritable ticket = .error .frozen := by
  simp [Grammar.checkWritable, dormant.frozen]

theorem Dormant.openRule (dormant : session.Dormant) (name : String) :
    session.openRule name = (session, .error .frozen) := by
  simp only [Session.openRule, Grammar.openRule, dormant.checkWritable, bind, Except.bind]

theorem Dormant.setOptions (dormant : session.Dormant) (options : Options) :
    session.setOptions options = (session, .error .frozen) := by
  simp only [Session.setOptions, Grammar.setOptions, dormant.checkWritable, bind, Except.bind]

theorem Dormant.setMainRule (dormant : session.Dormant) (name : String) :
    session.setMainRule name = (session, .error .frozen) := by
  simp only [Session.setMainRule, Grammar.setMainRule, dormant.checkWritable, bind, Except.bind]

/-- Compiling a frozen grammar leaves it as it is. -/
theorem Dormant.compile (dormant : session.Dormant) : session.compile.1 = session := by
  obtain ⟨⟨description, rules, options, frozen, writer, nextTicket⟩, cursors⟩ := session
  obtain ⟨rfl, _, rfl⟩ := dormant
  rfl

/-- No event changes a session with a frozen grammar. -/
theorem Dormant.step (dormant : session.Dormant) (event : Event) : session.step event = session := by
  have absent : ∀ number : Nat, session.cursors[number]? = none := fun number => by
    rw [dormant.nobody, List.getElem?_nil]
  cases event with
  | openRule name => rw [Session.step, dormant.openRule]
  | setOptions options => rw [Session.step, dormant.setOptions]
  | setMainRule name => rw [Session.step, dormant.setMainRule]
  | compile => exact dormant.compile
  -- a change through a cursor needs a cursor, and there is none
  | edit number edit => simp only [Session.step, Session.edit, absent]
  | drop number => simp only [Session.step, Session.drop, absent]

/-- Whatever is tried, a session with a frozen grammar stays as it is. -/
theorem Dormant.run (dormant : session.Dormant) (events : List Event) :
    session.run events = session := by
  induction events with
  | nil => rfl
  | cons event events ih => rw [Session.run, List.foldl_cons, dormant.step]; exact ih

/-- Compiling while nobody writes freezes the grammar and changes nothing else, and compiling once more gives
the same answer. -/
theorem compile_idle (free : session.grammar.writer = none) :
    session.compile.1 = ⟨{ session.grammar with frozen := true }, session.cursors⟩ ∧
      session.compile.1.compile = (session.compile.1, session.compile.2) := by
  simp [Session.compile, Grammar.compile, free]

/-- From an attempt to compile while nobody writes on, the grammar stays as the attempt found it. -/
theorem Sound.frozenSince (sound : session.Sound) (nobody : session.cursors = []) (events : List Event) :
    session.FrozenSince (session.compile.1.run events) := by
  have free := sound.writer_eq_none nobody
  obtain ⟨hcompile, again⟩ := compile_idle free
  -- nothing can happen any more, so it is enough to look at the session right after the attempt
  have dormant : session.compile.1.Dormant := by
    rw [hcompile]
    exact ⟨rfl, nobody, free⟩
  rw [dormant.run events]
  exact {
    frozen := dormant.frozen
    writer := dormant.free
    rules := by rw [hcompile]
    options := by rw [hcompile]
    description := by rw [hcompile]
    openRule := dormant.openRule
    setOptions := dormant.setOptions
    setMainRule := dormant.setMainRule
    compile := again }

/-- Compiling while nobody writes is final: whatever is tried later, the grammar stays frozen with the rules
and options that it had, nothing can be written, and compiling again gives the same answer.  Compiling
while a cursor is open is refused and changes nothing, so it does not freeze the grammar. -/
theorem Reachable.compile_final (h : session.Reachable) :
    (session.cursors = [] → ∀ events, session.FrozenSince (session.compile.1.run events)) ∧
      (session.cursors ≠ [] → session.compile = (session, .error (.authoring .concurrentAuthoring)) ∧
        session.grammar.frozen = false) := by
  have sound := h.sound
  constructor
  · exact sound.frozenSince
  · intro busy
    cases sound.writer with
    | idle nobody => exact absurd nobody busy
    | writing one holds thawed =>
      exact ⟨by simp [Session.compile, Grammar.compile, holds], thawed⟩

/-- A rule whose reference is undefined: it cannot be compiled, and the attempt is final all the same; an
attempt before the cursor is closed changes nothing. -/
theorem compile_final_undefined :
    let opened := (fresh "").run [.openRule "list", .edit 0 (.reference "item")]
    let closed := opened.step (.edit 0 .finish)
    opened.Reachable ∧ opened.cursors ≠ [] ∧
      opened.compile = (opened, .error (.authoring .concurrentAuthoring)) ∧
      closed.Reachable ∧ closed.cursors = [] ∧
      closed.compile.2 = .error (.rules (.undefinedReference "list" "item")) ∧
      closed.FrozenSince (closed.compile.1.run [.openRule "item", .setMainRule "list", .compile]) :=
  have opened := (Reachable.fresh "").run [.openRule "list", .edit 0 (.reference "item")]
  have closed := opened.step (.edit 0 .finish)
  ⟨opened, by decide, ((Reachable.compile_final opened).2 (by decide)).1, closed, rfl, rfl,
    (Reachable.compile_final closed).1 rfl _⟩

/-! ## Building -/

/-- A build leads to a state that a fresh grammar can get to without one. -/
theorem Reachable.build (h : session.Reachable) (number : Nat) : (session.build number).1.Reachable := by
  have ended : (session.edit number .finish).1.Reachable := h.step (.edit number .finish)
  unfold Session.build
  split
  · rename_i closed _ hedit
    rw [hedit] at ended
    exact ended.step .compile
  · rename_i lost _ hedit
    rwa [hedit] at ended
  · rename_i same hedit
    rwa [hedit] at ended

/-- Behind a segment a cursor can be closed, which gives its ticket back and changes nothing else. -/
theorem Sound.edit_finish (sound : session.Sound) {number : Nat} {cursor : Cursor}
    (found : session.cursors[number]? = some cursor) (written : cursor.kind.isAfterSegment = true) :
    session.edit number .finish = (⟨{ session.grammar with writer := none }, []⟩, some (.ok none)) := by
  obtain ⟨rfl, one, holds, thawed, _⟩ := sound.of_cursor found
  have admitted : cursor.admits .finish = true := by
    simp [Cursor.admits, Edit.isAllowedAfter, Edit.isMark, written]
  simp [Session.edit, Grammar.edit, Grammar.attempt_eq_perform thawed holds admitted, Grammar.perform, one]

/-- A build behind a segment closes the cursor and compiles, and from there on the grammar stays as it is. -/
theorem Reachable.frozenSince_build (h : session.Reachable) {number : Nat} {cursor : Cursor}
    (found : session.cursors[number]? = some cursor) (written : cursor.kind.isAfterSegment = true) :
    let closed : Session := ⟨{ session.grammar with writer := none }, []⟩
    session.build number = (closed.compile.1, some closed.compile.2) ∧
      ∀ events, closed.FrozenSince ((session.build number).1.run events) := by
  intro closed
  have hedit : session.edit number .finish = (closed, some (.ok none)) := h.sound.edit_finish found written
  have sound : closed.Sound := by simpa only [hedit] using h.sound.edit number .finish
  have hbuild : session.build number = (closed.compile.1, some closed.compile.2) := by
    simp only [Session.build, hedit]
  refine ⟨hbuild, fun events => ?_⟩
  rw [hbuild]
  exact sound.frozenSince rfl events

end Session

end ChainGrammar
