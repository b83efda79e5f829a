import ChainGrammar.Proofs.Authoring.Invariant

/-!
# One writer at a time

However the operations on a grammar and on its cursors are interleaved, there is at most one cursor, and the
grammar remembers its ticket for just as long as there is one (`Session.Reachable.singleWriter`).  So
nobody else can change the grammar meanwhile, the cursor itself is never kept from writing, and once it is
gone, in whatever way, the next rule can be opened.

All of this is read off what every session keeps (`Session.Sound`).
-/

set_option autoImplicit false

namespace ChainGrammar

namespace Grammar

variable {grammar next : Grammar} {cursor : Cursor}

/-- While somebody writes to a grammar nobody without a ticket may. -/
theorem checkWritable_concurrent {ticket : Nat} (thawed : grammar.frozen = false)
    (holds : grammar.writer = some ticket) :
    grammar.checkWritable none = .error .concurrentAuthoring := by
  simp [checkWritable, thawed, holds]

/-- Adding a rule fails only because its name is in use. -/
theorem addRule_error {name : String} {error : AuthoringError}
    (h : grammar.addRule name = .error error) : error = .duplicateRule name := by
  unfold addRule at h
  split at h
  · exact (Except.error.inj h).symm
  · cases h

/-- An edit in its place fails only where it opens a rule under a name that is in use. -/
theorem perform_error {edit : Edit} {error : AuthoringError}
    (h : grammar.perform cursor edit = .error error) : ∃ name, error = .duplicateRule name := by
  cases edit with
  | rule name =>
    cases hadd : grammar.addRule name with
    | error fault =>
      simp only [perform, hadd, bind, Except.bind, Except.error.injEq] at h
      exact ⟨name, h ▸ addRule_error hadd⟩
    | ok grown => simp [perform, hadd, bind, Except.bind, pure, Except.pure] at h
  | _ => cases h

/-- An edit by the holder of the ticket fails only because of the edit itself. -/
theorem attempt_error {edit : Edit} {error : AuthoringError} (thawed : grammar.frozen = false)
    (holds : grammar.writer = some cursor.ticket) (h : grammar.attempt cursor edit = .error error) :
    error = .invalidSequence edit.name cursor.kind ∨ ∃ name, error = .duplicateRule name := by
  simp only [attempt, checkWritable_ok thawed holds, bind, Except.bind] at h
  split at h
  · exact .inr (perform_error h)
  · exact .inl (Except.error.inj h).symm

/-- While nobody writes, a rule can be opened under every name that is not in use. -/
theorem exists_openRule {name : String} (thawed : grammar.frozen = false)
    (free : grammar.writer = none) (unused : Rules.find? grammar.rules name = none) :
    ∃ opened, grammar.openRule name = .ok opened := by
  simp [openRule, checkWritable_ok thawed free, addRule, unused, bind, Except.bind, pure,
    Except.pure]

end Grammar

namespace Session

/-- The next rule can be opened, under any name that is not in use. -/
def AcceptsRule (session : Session) : Prop :=
  ∀ name, Rules.find? session.grammar.rules name = none →
    ∃ cursor, (session.openRule name).2 = .ok cursor

/-- Nothing can be done to the grammar but through a cursor, and trying changes nothing. -/
structure RefusesOthers (session : Session) : Prop where
  openRule : ∀ name, session.openRule name = (session, .error .concurrentAuthoring)
  setOptions : ∀ options, session.setOptions options = (session, .error .concurrentAuthoring)
  setMainRule : ∀ name, session.setMainRule name = (session, .error .concurrentAuthoring)
  compile : session.compile = (session, .error (.authoring .concurrentAuthoring))

/-- Who may write is settled: the one open cursor while there is one, and otherwise anybody. -/
structure SingleWriter (session : Session) : Prop where
  one : session.cursors.length ≤ 1
  /-- The grammar remembers a ticket exactly while a cursor with this ticket is open. -/
  lock : ∀ ticket, session.grammar.writer = some ticket ↔
    ∃ cursor ∈ session.cursors, cursor.ticket = ticket
  frozen : session.grammar.frozen = true → session.cursors = []
  others : session.cursors ≠ [] → session.RefusesOthers
  /-- An edit is never refused because of another writer or a frozen grammar. -/
  admitted : ∀ number edit error, (session.edit number edit).2 = some (.error error) →
    error ≠ .frozen ∧ error ≠ .concurrentAuthoring
  /-- A cursor that is dropped leaves the grammar to the next one. -/
  dropped : ∀ number cursor, session.cursors[number]? = some cursor →
    (session.drop number).1.AcceptsRule
  /-- So does a cursor that an edit closes, and one that is lost because its edit fails. -/
  finished : ∀ number edit, (session.edit number edit).2 = some (.ok none) ∨
    (∃ error, (session.edit number edit).2 = some (.error error)) →
    (session.edit number edit).1.AcceptsRule

variable {session : Session}

/-- Without a cursor nobody writes. -/
theorem Sound.writer_eq_none (sound : session.Sound) (nobody : session.cursors = []) :
    session.grammar.writer = none := by
  cases sound.writer with
  | idle _ free => exact free
  | writing one => rw [nobody] at one; cases one

/-- Without a cursor, a grammar that is not frozen is open to the next one. -/
theorem Sound.acceptsRule (sound : session.Sound) (nobody : session.cursors = [])
    (thawed : session.grammar.frozen = false) : session.AcceptsRule := by
  intro name unused
  obtain ⟨⟨next, cursor⟩, hopen⟩ :=
    Grammar.exists_openRule thawed (sound.writer_eq_none nobody) unused
  exact ⟨cursor, by rw [Session.openRule, hopen]⟩

/-- While a cursor is open the grammar is closed to everybody else. -/
theorem Sound.refusesOthers (sound : session.Sound) (busy : session.cursors ≠ []) :
    session.RefusesOthers := by
  cases sound.writer with
  | idle nobody => exact absurd nobody busy
  | writing one holds thawed =>
    have refused := Grammar.checkWritable_concurrent thawed holds
    exact {
      openRule := fun name => by
        simp only [Session.openRule, Grammar.openRule, refused, bind, Except.bind]
      setOptions := fun options => by
        simp only [Session.setOptions, Grammar.setOptions, refused, bind, Except.bind]
      setMainRule := fun name => by
        simp only [Session.setMainRule, Grammar.setMainRule, refused, bind, Except.bind]
      compile := by simp [Session.compile, Grammar.compile, holds] }

/-- A cursor that is gone leaves the grammar open to the next one. -/
theorem Sound.acceptsRule_release (sound : session.Sound) {number : Nat} {cursor : Cursor}
    (found : session.cursors[number]? = some cursor) :
    AcceptsRule ⟨session.grammar.release cursor, session.cursors.eraseIdx number⟩ := by
  obtain ⟨rfl, one, _, thawed, _⟩ := sound.of_cursor found
  refine (sound.release found).acceptsRule (by simp [one]) ?_
  simp only [Grammar.release]
  split <;> exact thawed

/-- An edit is never refused because of another writer or a frozen grammar. -/
theorem Sound.edit_error (sound : session.Sound) {number : Nat} {edit : Edit}
    {error : AuthoringError} (h : (session.edit number edit).2 = some (.error error)) :
    error ≠ .frozen ∧ error ≠ .concurrentAuthoring := by
  unfold Session.edit Grammar.edit at h
  split at h
  · cases h
  · rename_i cursor found
    obtain ⟨_, _, holds, thawed, _⟩ := sound.of_cursor found
    cases hattempt : session.grammar.attempt cursor edit with
    | error fault =>
      simp only [hattempt, Option.some.injEq, Except.error.injEq] at h
      obtain rfl | ⟨name, rfl⟩ := h ▸ Grammar.attempt_error thawed holds hattempt
      · exact ⟨nofun, nofun⟩
      · exact ⟨nofun, nofun⟩
    | ok result =>
      obtain ⟨next, _ | moved⟩ := result
      · simp [hattempt] at h
      · simp [hattempt] at h

/-- An edit after which its cursor is gone leaves the grammar open to the next one. -/
theorem Sound.acceptsRule_edit (sound : session.Sound) {number : Nat} {edit : Edit}
    (gone : (session.edit number edit).2 = some (.ok none) ∨
      ∃ error, (session.edit number edit).2 = some (.error error)) :
    (session.edit number edit).1.AcceptsRule := by
  unfold Session.edit Grammar.edit at gone ⊢
  split at gone
  · simp at gone
  · rename_i cursor found
    obtain ⟨rfl, one, holds, thawed, place⟩ := sound.of_cursor found
    cases hattempt : session.grammar.attempt cursor edit with
    | error fault => simpa only [found] using sound.acceptsRule_release found
    | ok result =>
      obtain ⟨next, _ | moved⟩ := result
      · obtain ⟨_, _, allowed, hperform⟩ := Grammar.attempt_ok hattempt
        obtain ⟨wellFormed, hfrozen, free⟩ :=
          Grammar.perform_sound sound.wellFormed place allowed hperform
        have closed : Session.Sound ⟨next, []⟩ := ⟨wellFormed, .idle rfl free⟩
        have accepts := closed.acceptsRule rfl (hfrozen.trans thawed)
        simpa only [one, List.getElem?_cons_zero, List.eraseIdx_zero, List.tail_cons, hattempt]
          using accepts
      · simp [hattempt] at gone

/-- Every session has a single writer. -/
theorem Reachable.singleWriter (h : session.Reachable) : session.SingleWriter := by
  have sound := h.sound
  refine {
    one := ?_, lock := ?_, frozen := ?_, others := sound.refusesOthers,
    admitted := fun _ _ _ => sound.edit_error, dropped := ?_,
    finished := fun _ _ => sound.acceptsRule_edit }
  · cases sound.writer with
    | idle nobody => simp [nobody]
    | writing one => simp [one]
  · intro ticket
    cases sound.writer with
    | idle nobody free => simp [nobody, free]
    | writing one holds => simp [one, holds]
  · intro frozen
    cases sound.writer with
    | idle nobody => exact nobody
    | writing _ _ thawed => rw [frozen] at thawed; cases thawed
  · intro number cursor found
    simpa only [Session.drop, found] using sound.acceptsRule_release found

/-- A cursor on a rule with one symbol is the single writer, after somebody else has tried to write. -/
theorem singleWriter_symbol :
    ((fresh "").run [.openRule "term", .edit 0 (.symbol "atom" []), .openRule "pair"]).Reachable ∧
      ((fresh "").run [.openRule "term", .edit 0 (.symbol "atom" []), .openRule "pair"]).cursors =
        [⟨0, 0, .symbol, some 0⟩] ∧
      ((fresh "").run
        [.openRule "term", .edit 0 (.symbol "atom" []), .openRule "pair"]).SingleWriter :=
  have reachable := (Reachable.fresh "").run
    [.openRule "term", .edit 0 (.symbol "atom" []), .openRule "pair"]
  ⟨reachable, rfl, reachable.singleWriter⟩

end Session

end ChainGrammar
