import ChainGrammar.Proofs.Authoring.Shape
import ChainGrammar.Proofs.Authoring.SingleWriter

/-!
# Refusals

A change of a grammar can be refused for several reasons at once.  They are looked for in a fixed order: the
grammar is frozen, somebody else writes, the edit may not follow here, the name of the rule is in use.
`Session.faults` lists those that apply, and the refusal that is answered is the first of the list
(`Session.Sound.refusal?_eq`), because every check comes before the first change.

For the same reason a refusal changes nothing but what belongs to the cursor: a refused edit gives the ticket
back and the cursor is gone (`Session.Reachable.refusesCleanly`).
-/

set_option autoImplicit false

namespace ChainGrammar

/-- The names of the edits that may follow at a cursor. -/
def CursorKind.allowedNext : CursorKind → List String
  | .rule | .alternation => ["sym", "reference"]
  | .symbol | .parameter | .value =>
    ["sym", "reference", "par", "val", "or", "rule", "optional", "end"]
  | .reference => ["sym", "reference", "or", "rule", "optional", "repeat", "end"]

/-- An edit may follow at a cursor exactly where the table of names says so. -/
theorem Edit.isAllowedAfter_iff (edit : Edit) (kind : CursorKind) :
    edit.isAllowedAfter kind = true ↔ edit.name ∈ kind.allowedNext := by
  cases edit <;> cases kind <;>
    simp [Edit.isAllowedAfter, Edit.name, CursorKind.allowedNext, CursorKind.isAfterSegment,
      CursorKind.isAfterSymbol]

/-- A mark may only follow where something has been written. -/
theorem Edit.isAfterSegment_of_isMark {edit : Edit} {kind : CursorKind} (mark : edit.isMark = true)
    (allowed : edit.isAllowedAfter kind = true) : kind.isAfterSegment = true := by
  cases edit with
  | optional => exact allowed
  | repeated count =>
    obtain rfl : kind = .reference := by simpa [Edit.isAllowedAfter] using allowed
    rfl
  | _ => cases mark

/-- At the end of the open definition the table alone decides, since a mark that may follow there has a
segment to change. -/
theorem Cursor.AtEnd.admits_eq {cursor : Cursor} {rules : List Rule} (place : cursor.AtEnd rules)
    (edit : Edit) : cursor.admits edit = edit.isAllowedAfter cursor.kind := by
  cases hallowed : edit.isAllowedAfter cursor.kind with
  | false => simp [Cursor.admits, hallowed]
  | true =>
    cases hmark : edit.isMark with
    | false => simp [Cursor.admits, hallowed, hmark]
    | true =>
      obtain ⟨before, name, earlier, opened, place⟩ := place
      -- a mark needs a last segment to change, and where it may follow there is one
      have written := place.written.1 (Edit.isAfterSegment_of_isMark hmark hallowed)
      obtain ⟨front, _, _, _, _, _, hlast⟩ :=
        Segment.exists_lastAnchor (place.ordered.exists_anchor_mem written)
      simp [Cursor.admits, hallowed, place.anchor, hlast]

/-! ## Why a change is refused -/

/-- The reason in an answer that is a refusal. -/
def refusalOf {α : Type} : Except AuthoringError α → Option AuthoringError
  | .error error => some error
  | .ok _ => none

/-- What follows a step that may be refused is refused for the reasons of the step or else for its own. -/
theorem refusalOf_bind {α β : Type} {answer : Except AuthoringError α}
    {next : α → Except AuthoringError β} {first second : List AuthoringError}
    (hfirst : refusalOf answer = first.head?)
    (hsecond : ∀ a, answer = .ok a → refusalOf (next a) = second.head?) :
    refusalOf (answer >>= next) = (first ++ second).head? := by
  cases answer with
  | error error =>
    have hhead : first.head? = some error := hfirst.symm
    rw [List.head?_append, hhead]
    rfl
  | ok a =>
    have hnil : first = [] := List.head?_eq_none_iff.1 hfirst.symm
    rw [hnil, List.nil_append]
    exact hsecond a rfl

namespace Grammar

variable {grammar : Grammar} {cursor : Cursor}

/-- Why the holder of the ticket, or anyone who has none, may not change the grammar. -/
def writeFaults (grammar : Grammar) (ticket : Option Nat) : List AuthoringError :=
  (if grammar.frozen then [.frozen] else []) ++
    if grammar.writer = ticket then [] else [.concurrentAuthoring]

/-- Why no rule of the given name can be opened. -/
def nameFaults (grammar : Grammar) (name : String) : List AuthoringError :=
  if name ∈ Rules.names grammar.rules then [.duplicateRule name] else []

/-- Why the edit may not follow at the cursor. -/
def orderFaults (cursor : Cursor) (edit : Edit) : List AuthoringError :=
  if edit.name ∈ cursor.kind.allowedNext then [] else [.invalidSequence edit.name cursor.kind]

/-- Why the edit cannot be performed where it may follow. -/
def openingFaults (grammar : Grammar) : Edit → List AuthoringError
  | .rule name => grammar.nameFaults name
  | _ => []

/-- The right to write is refused for the first reason. -/
theorem refusalOf_checkWritable (grammar : Grammar) (ticket : Option Nat) :
    refusalOf (grammar.checkWritable ticket) = (grammar.writeFaults ticket).head? := by
  unfold checkWritable writeFaults
  cases grammar.frozen with
  | true => rfl
  | false => by_cases holds : grammar.writer = ticket <;> simp [holds, refusalOf]

/-- A rule is refused only because its name is in use. -/
theorem refusalOf_addRule (grammar : Grammar) (name : String) :
    refusalOf (grammar.addRule name) = (grammar.nameFaults name).head? := by
  have used : (Rules.find? grammar.rules name).isSome = true ↔ name ∈ Rules.names grammar.rules := by
    simp [Rules.find?, List.find?_isSome, Rules.names]
  unfold addRule nameFaults
  by_cases h : name ∈ Rules.names grammar.rules
  · rw [if_pos (used.2 h), if_pos h]
    rfl
  · rw [if_neg (mt used.1 h), if_neg h]
    rfl

/-- Opening a rule is refused for the first reason. -/
theorem refusalOf_openRule (grammar : Grammar) (name : String) :
    refusalOf (grammar.openRule name) =
      (grammar.writeFaults none ++ grammar.nameFaults name).head? := by
  refine refusalOf_bind (refusalOf_checkWritable grammar none) fun _ _ => ?_
  rw [← List.append_nil (grammar.nameFaults name)]
  exact refusalOf_bind (refusalOf_addRule grammar name) fun _ _ => rfl

/-- An edit in its place is refused only because of a name that is in use. -/
theorem refusalOf_perform (grammar : Grammar) (cursor : Cursor) (edit : Edit) :
    refusalOf (grammar.perform cursor edit) = (grammar.openingFaults edit).head? := by
  cases edit with
  | rule name =>
    rw [openingFaults, ← List.append_nil (grammar.nameFaults name)]
    exact refusalOf_bind (refusalOf_addRule grammar name) fun _ _ => rfl
  | _ => rfl

/-- An edit at the end of the open definition is refused for the first reason. -/
theorem refusalOf_attempt (place : cursor.AtEnd grammar.rules) (edit : Edit) :
    refusalOf (grammar.attempt cursor edit) =
      (grammar.writeFaults (some cursor.ticket) ++
        (orderFaults cursor edit ++ grammar.openingFaults edit)).head? := by
  refine refusalOf_bind (refusalOf_checkWritable grammar (some cursor.ticket)) fun _ _ => ?_
  rw [place.admits_eq, orderFaults]
  by_cases h : edit.name ∈ cursor.kind.allowedNext
  · rw [if_pos ((edit.isAllowedAfter_iff cursor.kind).2 h), if_pos h]
    exact refusalOf_perform grammar cursor edit
  · rw [if_neg (mt (edit.isAllowedAfter_iff cursor.kind).1 h), if_neg h]
    rfl

end Grammar

namespace Session

/-- Why an event is refused, if it is. -/
def refusal? (session : Session) : Event → Option AuthoringError
  | .openRule name => refusalOf (session.openRule name).2
  | .setOptions options => refusalOf (session.setOptions options).2
  | .setMainRule name => refusalOf (session.setMainRule name).2
  | .edit number edit => (session.edit number edit).2.bind refusalOf
  | .compile | .drop _ => none

/-- The reasons for which an event has to be refused, in their order. -/
def faults (session : Session) : Event → List AuthoringError
  | .openRule name => session.grammar.writeFaults none ++ session.grammar.nameFaults name
  | .setOptions _ | .setMainRule _ => session.grammar.writeFaults none
  | .edit number edit =>
    match session.cursors[number]? with
    | none => []
    | some cursor => session.grammar.writeFaults (some cursor.ticket) ++
        (Grammar.orderFaults cursor edit ++ session.grammar.openingFaults edit)
  | .compile | .drop _ => []

/-- A refusal gives the first of the reasons, and changes nothing but what belongs to the cursor. -/
structure RefusesCleanly (session : Session) : Prop where
  first : ∀ event, session.refusal? event = (session.faults event).head?
  /-- What is refused through the grammar leaves it alone, with its cursors. -/
  outside : ∀ event error, (∀ number edit, event ≠ .edit number edit) →
    session.refusal? event = some error → session.step event = session
  /-- A refused edit gives the ticket back, the cursor is gone, and everything else is left alone. -/
  atCursor : ∀ number edit error, session.refusal? (.edit number edit) = some error →
    session.step (.edit number edit) = ⟨{ session.grammar with writer := none }, []⟩
  /-- An edit is refused as out of place exactly where the table of names does not list it. -/
  order : ∀ number cursor edit, session.cursors[number]? = some cursor →
    ((∃ name kind, session.refusal? (.edit number edit) = some (.invalidSequence name kind)) ↔
      edit.name ∉ cursor.kind.allowedNext)

variable {session : Session} {number : Nat} {cursor : Cursor}

theorem refusal?_edit (found : session.cursors[number]? = some cursor) (edit : Edit) :
    session.refusal? (.edit number edit) = refusalOf (session.grammar.attempt cursor edit) := by
  simp only [refusal?, Session.edit, found, Grammar.edit]
  rcases session.grammar.attempt cursor edit with error | ⟨next, _ | moved⟩ <;> rfl

/-- Whatever is refused is refused for the first reason. -/
theorem Sound.refusal?_eq (sound : session.Sound) (event : Event) :
    session.refusal? event = (session.faults event).head? := by
  cases event with
  | openRule name =>
    rw [faults, ← Grammar.refusalOf_openRule, refusal?, Session.openRule]
    cases session.grammar.openRule name <;> rfl
  | setOptions options =>
    rw [faults, ← Grammar.refusalOf_checkWritable, refusal?, Session.setOptions, Grammar.setOptions]
    cases session.grammar.checkWritable none <;> rfl
  | setMainRule name =>
    rw [faults, ← Grammar.refusalOf_checkWritable, refusal?, Session.setMainRule, Grammar.setMainRule]
    cases session.grammar.checkWritable none <;> rfl
  | edit number edit =>
    cases found : session.cursors[number]? with
    | none => simp [refusal?, faults, Session.edit, found]
    | some cursor =>
      -- the open definition is the one that the cursor stands in, so the table of names decides
      obtain ⟨_, _, _, _, place⟩ := sound.of_cursor found
      simp only [refusal?_edit found, faults, found, Grammar.refusalOf_attempt place]
  | compile => rfl
  | drop number => rfl

/-- What is refused through the grammar changes nothing. -/
theorem step_of_refusal? {event : Event} {error : AuthoringError}
    (outside : ∀ number edit, event ≠ .edit number edit) (h : session.refusal? event = some error) :
    session.step event = session := by
  cases event with
  | openRule name =>
    rw [refusal?, Session.openRule] at h
    rw [Session.step, Session.openRule]
    cases answer : session.grammar.openRule name with
    | error => rfl
    | ok => simp [answer, refusalOf] at h
  | setOptions options =>
    rw [refusal?, Session.setOptions] at h
    rw [Session.step, Session.setOptions]
    cases answer : session.grammar.setOptions options with
    | error => rfl
    | ok => simp [answer, refusalOf] at h
  | setMainRule name =>
    rw [refusal?, Session.setMainRule] at h
    rw [Session.step, Session.setMainRule]
    cases answer : session.grammar.setMainRule name with
    | error => rfl
    | ok => simp [answer, refusalOf] at h
  | edit number edit => exact absurd rfl (outside number edit)
  | compile => cases h
  | drop number => cases h

/-- A refused edit takes its cursor away and changes nothing else. -/
theorem Sound.step_edit_of_refusal? (sound : session.Sound) {edit : Edit} {error : AuthoringError}
    (h : session.refusal? (.edit number edit) = some error) :
    session.step (.edit number edit) = ⟨{ session.grammar with writer := none }, []⟩ := by
  cases found : session.cursors[number]? with
  | none => simp [refusal?, Session.edit, found] at h
  | some cursor =>
    obtain ⟨rfl, one, holds, _, _⟩ := sound.of_cursor found
    rw [refusal?_edit found] at h
    cases hattempt : session.grammar.attempt cursor edit with
    | error fault => simp [Session.step, Session.edit, Grammar.edit, hattempt, one, Grammar.release,
        holds]
    | ok result => simp [hattempt, refusalOf] at h

/-- An edit is refused as out of place exactly where it may not follow. -/
theorem Sound.invalidSequence_iff (sound : session.Sound)
    (found : session.cursors[number]? = some cursor) (edit : Edit) :
    (∃ name kind, session.refusal? (.edit number edit) = some (.invalidSequence name kind)) ↔
      edit.name ∉ cursor.kind.allowedNext := by
  obtain ⟨_, _, holds, thawed, place⟩ := sound.of_cursor found
  have admitted : session.grammar.writeFaults (some cursor.ticket) = [] := by
    simp [Grammar.writeFaults, thawed, holds]
  rw [refusal?_edit found, Grammar.refusalOf_attempt place, admitted, List.nil_append,
    Grammar.orderFaults]
  by_cases h : edit.name ∈ cursor.kind.allowedNext
  · rw [if_pos h, List.nil_append]
    refine ⟨?_, fun hnot => absurd h hnot⟩
    rintro ⟨name, kind, hhead⟩
    -- an edit in its place is refused only for a name that is in use
    have hmem := List.mem_of_head? hhead
    cases edit with
    | rule => simp [Grammar.openingFaults, Grammar.nameFaults] at hmem
    | _ => cases hmem
  · rw [if_neg h]
    exact ⟨fun _ => h, fun _ => ⟨edit.name, cursor.kind, rfl⟩⟩

/-- Whatever has been done before, a refusal gives the first reason that applies and leaves the grammar as it
was; only a cursor whose edit is refused is gone, and with it its hold on the grammar. -/
theorem Reachable.refusesCleanly (h : session.Reachable) : session.RefusesCleanly where
  first := h.sound.refusal?_eq
  outside _ _ := step_of_refusal?
  atCursor _ _ _ := h.sound.step_edit_of_refusal?
  order _ _ edit found := h.sound.invalidSequence_iff found edit

/-- At a cursor behind a symbol a repetition mark is refused as out of place, and a rule under the name that is
being written because the name is in use. -/
theorem refusesCleanly_term :
    let session := (fresh "").run [.openRule "term", .edit 0 (.symbol "atom" [])]
    session.Reachable ∧ session.RefusesCleanly ∧
      session.refusal? (.edit 0 (.repeated 2)) = some (.invalidSequence "repeat" .symbol) ∧
      session.refusal? (.edit 0 (.rule "term")) = some (.duplicateRule "term") ∧
      session.refusal? (.openRule "term") = some .concurrentAuthoring :=
  have reachable := (Reachable.fresh "").run [.openRule "term", .edit 0 (.symbol "atom" [])]
  ⟨reachable, Reachable.refusesCleanly reachable, rfl, rfl, rfl⟩

end Session

end ChainGrammar
