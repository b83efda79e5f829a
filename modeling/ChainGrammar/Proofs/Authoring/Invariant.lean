import ChainGrammar.Proofs.Authoring.WellFormed

/-!
# What every session keeps

Whatever is done to a grammar and its cursors, in whatever order, two things stay true
(`Session.Reachable.sound`).  The rules are well formed.  And either nobody writes and there is no
cursor, or there is one cursor: it holds the ticket that the grammar remembers, and it stands at the end
of the last definition of the last rule, with a kind and an anchor that say what that definition ends in
(`Cursor.IsAt`).

Every edit is one of four changes of the open definition or of what stands behind it: a segment is
appended, a segment is marked, a definition is opened, a rule is opened.
-/

set_option autoImplicit false

namespace ChainGrammar

/-- The cursor stands at the end of the open definition, which is the last one of the last rule. -/
structure Cursor.IsAt (cursor : Cursor) (rules before : List Rule) (name : String)
    (earlier : List Definition) (opened : Definition) : Prop where
  rules_eq : rules = before ++ [⟨name, earlier ++ [opened]⟩]
  rule : cursor.rule = before.length
  ordered : Ordered opened cursor.kind.isAfterSymbol
  written : cursor.kind.isAfterSegment = true ↔ opened ≠ []
  anchor : cursor.anchor = Segment.lastAnchor? opened

/-- The cursor stands at the end of some open definition. -/
def Cursor.AtEnd (cursor : Cursor) (rules : List Rule) : Prop :=
  ∃ before name earlier opened, cursor.IsAt rules before name earlier opened

/-- Who may write: nobody, or the one open cursor. -/
inductive Session.Writer (session : Session) : Prop where
  | idle (nobody : session.cursors = []) (free : session.grammar.writer = none)
  | writing {cursor : Cursor} (one : session.cursors = [cursor])
      (holds : session.grammar.writer = some cursor.ticket)
      (thawed : session.grammar.frozen = false) (place : cursor.AtEnd session.grammar.rules)

/-- What every session keeps. -/
structure Session.Sound (session : Session) : Prop where
  wellFormed : Rules.WellFormed session.grammar.rules
  writer : session.Writer

namespace Grammar

variable {grammar next : Grammar} {cursor : Cursor}

/-! ## What an edit does to the rules -/

/-- A change of the open definition. -/
theorem rules_changeOpenDefinition {before : List Rule} {name : String}
    {earlier : List Definition} {opened : Definition}
    (place : cursor.IsAt grammar.rules before name earlier opened)
    (change : Definition → Definition) :
    (grammar.changeRule cursor fun rule => rule.changeOpenDefinition change).rules =
      before ++ [⟨name, earlier ++ [change opened]⟩] := by
  have hlast : (Rule.changeOpenDefinition ⟨name, earlier ++ [opened]⟩ change) =
      ⟨name, earlier ++ [change opened]⟩ := by
    simp only [Rule.changeOpenDefinition, List.length_append, List.length_singleton,
      Nat.add_sub_cancel, modify_length_append]
  simp only [changeRule, place.rules_eq, place.rule, modify_length_append, hlast]

/-- The definition at the end of which a cursor stands is the one that it writes to. -/
theorem openDefinition_eq {before : List Rule} {name : String} {earlier : List Definition}
    {opened : Definition} (place : cursor.IsAt grammar.rules before name earlier opened) :
    grammar.openDefinition cursor = opened := by
  simp [openDefinition, place.rules_eq, place.rule]

/-- A segment in its place is appended: the rules stay well formed, and the next cursor stands behind
the segment. -/
theorem append_sound (wellFormed : Rules.WellFormed grammar.rules) {before : List Rule}
    {name : String} {earlier : List Definition} {opened : Definition}
    (place : cursor.IsAt grammar.rules before name earlier opened) {segment : Segment}
    {kind : CursorKind}
    (inPlace : segment.place (some cursor.kind.isAfterSymbol) = some kind.isAfterSymbol)
    (proper : segment.Proper) (written : kind.isAfterSegment = true) :
    Rules.WellFormed (grammar.append cursor segment).rules ∧
      Cursor.IsAt
        { cursor with
          kind, anchor := if segment.isAnchor then some opened.length else cursor.anchor }
        (grammar.append cursor segment).rules before name earlier (opened ++ [segment]) := by
  have hrules : (grammar.append cursor segment).rules =
      before ++ [⟨name, earlier ++ [opened ++ [segment]]⟩] :=
    rules_changeOpenDefinition place (· ++ [segment])
  have ordered := place.ordered.append inPlace proper
  rw [place.rules_eq] at wellFormed
  have each := wellFormed.each ⟨name, earlier ++ [opened]⟩ (by simp)
  refine ⟨?_, hrules, place.rule, ordered, ?_, ?_⟩
  · rw [hrules]
    exact wellFormed.replaceLast rfl (each.replaceLast ⟨_, ordered⟩)
  · simp [written]
  · rw [Segment.lastAnchor?_append, place.anchor]

/-- Appending a segment in its place leaves the cursor at the end. -/
theorem append_atEnd (wellFormed : Rules.WellFormed grammar.rules)
    (place : cursor.AtEnd grammar.rules) (segment : Segment) (kind : CursorKind)
    {anchor : Option Nat}
    (inPlace : segment.place (some cursor.kind.isAfterSymbol) = some kind.isAfterSymbol)
    (proper : segment.Proper) (written : kind.isAfterSegment = true)
    (moves : (if segment.isAnchor then some (grammar.openDefinition cursor).length
      else cursor.anchor) = anchor) :
    Rules.WellFormed (grammar.append cursor segment).rules ∧
      Cursor.AtEnd { cursor with kind, anchor } (grammar.append cursor segment).rules := by
  obtain ⟨before, name, earlier, opened, place⟩ := place
  subst moves
  rw [openDefinition_eq place]
  obtain ⟨each, moved⟩ := append_sound wellFormed place inPlace proper written
  exact ⟨each, before, name, earlier, opened ++ [segment], moved⟩

/-- The last symbol or reference is marked: the rules stay well formed, and the cursor stays where it
is. -/
theorem changeAnchor_sound (wellFormed : Rules.WellFormed grammar.rules)
    (place : cursor.AtEnd grammar.rules) (change : Segment → Segment)
    (same : ∀ b segment, Segment.place b (change segment) = Segment.place b segment)
    (sort : ∀ segment, (change segment).isAnchor = segment.isAnchor)
    (proper : ∀ segment : Segment, segment.Proper → (change segment).Proper) :
    Rules.WellFormed (grammar.changeAnchor cursor change).rules ∧
      cursor.AtEnd (grammar.changeAnchor cursor change).rules := by
  unfold changeAnchor
  split
  · exact ⟨wellFormed, place⟩
  · rename_i anchor _
    obtain ⟨before, name, earlier, opened, place⟩ := place
    have hrules := rules_changeOpenDefinition place (·.modify anchor change)
    have ordered := place.ordered.modify same proper anchor
    rw [place.rules_eq] at wellFormed
    have each := wellFormed.each ⟨name, earlier ++ [opened]⟩ (by simp)
    refine ⟨?_, before, name, earlier, opened.modify anchor change, hrules, place.rule, ordered, ?_, ?_⟩
    · rw [hrules]
      exact wellFormed.replaceLast rfl (each.replaceLast ⟨_, ordered⟩)
    · rw [place.written, ne_eq, ne_eq, ← List.length_eq_zero_iff, ← List.length_eq_zero_iff,
        List.length_modify]
    · have tracked : ∀ b segment, Segment.trackAnchor b (change segment) = Segment.trackAnchor b segment :=
        fun b segment => by simp only [Segment.trackAnchor, sort]
      rw [place.anchor, Segment.lastAnchor?, Segment.lastAnchor?, foldl_modify_of_eq tracked]

/-- An alternative definition is opened behind one that is not empty. -/
theorem openAlternative_sound (wellFormed : Rules.WellFormed grammar.rules)
    (place : cursor.AtEnd grammar.rules) (written : cursor.kind.isAfterSegment = true) :
    Rules.WellFormed (grammar.changeRule cursor Rule.openDefinition).rules ∧
      Cursor.AtEnd { cursor with kind := .alternation, anchor := none }
        (grammar.changeRule cursor Rule.openDefinition).rules := by
  obtain ⟨before, name, earlier, opened, place⟩ := place
  have hrules : (grammar.changeRule cursor Rule.openDefinition).rules =
      before ++ [⟨name, earlier ++ [opened] ++ [[]]⟩] := by
    simp only [changeRule, place.rules_eq, place.rule, modify_length_append, Rule.openDefinition]
  rw [place.rules_eq] at wellFormed
  have each := wellFormed.each ⟨name, earlier ++ [opened]⟩ (by simp)
  refine ⟨?_, before, name, earlier ++ [opened], [], hrules, place.rule, .nil, ?_, rfl⟩
  · rw [hrules]
    exact wellFormed.replaceLast rfl (each.openNext (place.written.1 written))
  · simp [CursorKind.isAfterSegment]

/-- A rule is added at the end under a name that is not in use. -/
theorem addRule_ok {name : String} (h : grammar.addRule name = .ok next) :
    Rules.find? grammar.rules name = none ∧
      next = { grammar with rules := grammar.rules ++ [Rule.opened name] } := by
  unfold addRule at h
  split at h
  · cases h
  · rename_i unused
    exact ⟨by simpa using unused, (Except.ok.inj h).symm⟩

/-- The cursor of a rule that has been added stands at its empty definition. -/
theorem atEnd_headCursor (grammar : Grammar) (name : String) (ticket : Nat) :
    Cursor.AtEnd ⟨ticket, (grammar.rules ++ [Rule.opened name]).length - 1, .rule, none⟩
      (grammar.rules ++ [Rule.opened name]) :=
  ⟨grammar.rules, name, [], [], rfl, by simp, .nil, by simp [CursorKind.isAfterSegment], rfl⟩

/-! ## What an edit does to a grammar -/

/-- Whoever holds the ticket of a grammar that is not frozen may write. -/
theorem checkWritable_ok {ticket : Option Nat} (thawed : grammar.frozen = false)
    (holds : grammar.writer = ticket) : grammar.checkWritable ticket = .ok () := by
  simp [checkWritable, thawed, holds]

/-- An edit in its place by the holder of the ticket is performed. -/
theorem attempt_eq_perform {edit : Edit} (thawed : grammar.frozen = false)
    (holds : grammar.writer = some cursor.ticket) (admitted : cursor.admits edit = true) :
    grammar.attempt cursor edit = grammar.perform cursor edit := by
  simp only [attempt, checkWritable_ok thawed holds, bind, Except.bind, admitted, if_true]

/-- An edit that succeeds is one of a cursor that may write, in its place. -/
theorem attempt_ok {edit : Edit} {answer : Option Cursor}
    (h : grammar.attempt cursor edit = .ok (next, answer)) :
    grammar.frozen = false ∧ grammar.writer = some cursor.ticket ∧
      edit.isAllowedAfter cursor.kind = true ∧ grammar.perform cursor edit = .ok (next, answer) := by
  unfold attempt checkWritable at h
  cases hfrozen : grammar.frozen with
  | true => simp [hfrozen, bind, Except.bind] at h
  | false =>
    by_cases hwriter : grammar.writer = some cursor.ticket
    · cases hadmits : cursor.admits edit with
      | true =>
        have allowed := (Bool.and_eq_true_iff.1 hadmits).1
        simpa [hfrozen, hwriter, hadmits, allowed, bind, Except.bind] using h
      | false => simp [hfrozen, hwriter, hadmits, bind, Except.bind] at h
    · simp [hfrozen, hwriter, bind, Except.bind] at h

/-- An edit in its place keeps the rules well formed.  The next cursor, if there is one, has the ticket
of the one before and stands at the end; if there is none, the ticket is given back. -/
theorem perform_sound (wellFormed : Rules.WellFormed grammar.rules)
    (place : cursor.AtEnd grammar.rules) {edit : Edit} {answer : Option Cursor}
    (allowed : edit.isAllowedAfter cursor.kind = true)
    (h : grammar.perform cursor edit = .ok (next, answer)) :
    Rules.WellFormed next.rules ∧ next.frozen = grammar.frozen ∧
      match answer with
      | none => next.writer = none
      | some moved =>
        next.writer = grammar.writer ∧ moved.ticket = cursor.ticket ∧ moved.AtEnd next.rules := by
  cases edit with
  | symbol name params =>
    obtain ⟨rfl, rfl⟩ := Prod.mk.inj (Except.ok.inj h)
    obtain ⟨each, moved⟩ := append_atEnd wellFormed place (.symbol name params false) .symbol
      (by cases cursor.kind.isAfterSymbol <;> rfl) trivial rfl rfl
    exact ⟨each, rfl, rfl, rfl, moved⟩
  | reference rule =>
    obtain ⟨rfl, rfl⟩ := Prod.mk.inj (Except.ok.inj h)
    obtain ⟨each, moved⟩ := append_atEnd wellFormed place (.reference rule false .once) .reference
      (by cases cursor.kind.isAfterSymbol <;> rfl) trivial rfl rfl
    exact ⟨each, rfl, rfl, rfl, moved⟩
  | parameter name =>
    obtain ⟨rfl, rfl⟩ := Prod.mk.inj (Except.ok.inj h)
    have allowed : cursor.kind.isAfterSymbol = true := allowed
    obtain ⟨each, moved⟩ := append_atEnd wellFormed place (.parameter name) .parameter
      (by rw [allowed]; rfl) trivial rfl rfl
    exact ⟨each, rfl, rfl, rfl, moved⟩
  | value =>
    obtain ⟨rfl, rfl⟩ := Prod.mk.inj (Except.ok.inj h)
    have allowed : cursor.kind.isAfterSymbol = true := allowed
    obtain ⟨each, moved⟩ := append_atEnd wellFormed place .value .value
      (by rw [allowed]; rfl) trivial rfl rfl
    exact ⟨each, rfl, rfl, rfl, moved⟩
  | optional =>
    obtain ⟨rfl, rfl⟩ := Prod.mk.inj (Except.ok.inj h)
    obtain ⟨each, stays⟩ := changeAnchor_sound wellFormed place Segment.markOptional
      (by rintro (_ | _ | _) (_ | _ | _ | _ | _) <;> rfl) (by rintro (_ | _ | _ | _ | _) <;> rfl)
      (by rintro (_ | _ | _ | _ | _) h <;> exact h)
    refine ⟨each, ?_, ?_, rfl, stays⟩ <;> unfold changeAnchor <;> split <;> rfl
  | repeated count =>
    obtain ⟨rfl, rfl⟩ := Prod.mk.inj (Except.ok.inj h)
    obtain ⟨each, stays⟩ := changeAnchor_sound wellFormed place
      (Segment.markRepeated (Repeat.ofCount count))
      (by rintro (_ | _ | _) (_ | _ | _ | _ | _) <;> rfl) (by rintro (_ | _ | _ | _ | _) <;> rfl)
      (by rintro (_ | _ | _ | _ | _) h <;> first | exact h | exact Repeat.proper_ofCount count)
    refine ⟨each, ?_, ?_, rfl, stays⟩ <;> unfold changeAnchor <;> split <;> rfl
  | alternative =>
    obtain ⟨rfl, rfl⟩ := Prod.mk.inj (Except.ok.inj h)
    obtain ⟨each, moved⟩ := openAlternative_sound wellFormed place allowed
    exact ⟨each, rfl, rfl, rfl, moved⟩
  | rule name =>
    unfold perform at h
    cases hadd : grammar.addRule name with
    | error error => simp [hadd, bind, Except.bind] at h
    | ok grown =>
      obtain ⟨unused, rfl⟩ := addRule_ok hadd
      simp only [hadd, bind, Except.bind, pure, Except.pure, Except.ok.injEq, Prod.mk.injEq] at h
      obtain ⟨rfl, rfl⟩ := h
      exact ⟨wellFormed.append unused, rfl, rfl, rfl, atEnd_headCursor grammar name cursor.ticket⟩
  | finish =>
    obtain ⟨rfl, rfl⟩ := Prod.mk.inj (Except.ok.inj h)
    exact ⟨wellFormed, rfl, rfl⟩

/-- A rule is opened through the grammar only while nobody writes; its cursor gets the ticket. -/
theorem openRule_ok {name : String} (h : grammar.openRule name = .ok (next, cursor)) :
    grammar.frozen = false ∧ grammar.writer = none ∧ Rules.find? grammar.rules name = none ∧
      next.rules = grammar.rules ++ [Rule.opened name] ∧ next.frozen = false ∧
      next.writer = some cursor.ticket ∧ cursor.AtEnd next.rules := by
  unfold openRule checkWritable at h
  cases hfrozen : grammar.frozen with
  | true => simp [hfrozen, bind, Except.bind] at h
  | false =>
    by_cases hwriter : grammar.writer = none
    · cases hadd : grammar.addRule name with
      | error error => simp [hfrozen, hwriter, hadd, bind, Except.bind] at h
      | ok grown =>
        obtain ⟨unused, rfl⟩ := addRule_ok hadd
        simp only [hfrozen, hwriter, hadd, bind, Except.bind, pure, Except.pure, Bool.false_eq_true,
          if_false, bne_self_eq_false, Except.ok.injEq, Prod.mk.injEq] at h
        obtain ⟨rfl, rfl⟩ := h
        exact ⟨rfl, hwriter, unused, rfl, rfl, rfl,
          atEnd_headCursor grammar name grammar.nextTicket⟩
    · simp [hfrozen, hwriter, bind, Except.bind] at h

end Grammar

namespace Session

/-! ## What an event does to a session -/

/-- Options can be replaced only while nobody writes, and this leaves the rest alone. -/
theorem Sound.withOptions {session : Session} (sound : session.Sound) (options : Options) :
    Sound { session with grammar := { session.grammar with options } } := by
  refine ⟨sound.wellFormed, ?_⟩
  cases sound.writer with
  | idle nobody free => exact .idle nobody free
  | writing one holds thawed place => exact .writing one holds thawed place

/-- An open cursor is the only one, and it may write. -/
theorem Sound.of_cursor {session : Session} (sound : session.Sound) {number : Nat} {cursor : Cursor}
    (found : session.cursors[number]? = some cursor) :
    number = 0 ∧ session.cursors = [cursor] ∧ session.grammar.writer = some cursor.ticket ∧
      session.grammar.frozen = false ∧ cursor.AtEnd session.grammar.rules := by
  cases sound.writer with
  | idle nobody free => simp [nobody] at found
  | @writing writer one holds thawed place =>
    rw [one, List.getElem?_singleton] at found
    split at found
    · rename_i hzero
      obtain rfl := Option.some.inj found
      exact ⟨hzero, one, holds, thawed, place⟩
    · cases found

/-- A cursor that is gone gives its ticket back. -/
theorem Sound.release {session : Session} (sound : session.Sound) {number : Nat} {cursor : Cursor}
    (found : session.cursors[number]? = some cursor) :
    Sound ⟨session.grammar.release cursor, session.cursors.eraseIdx number⟩ := by
  obtain ⟨rfl, one, holds, _, _⟩ := sound.of_cursor found
  have hrelease : session.grammar.release cursor = { session.grammar with writer := none } := by
    simp [Grammar.release, holds]
  rw [hrelease]
  exact ⟨sound.wellFormed, .idle (by simp [one]) rfl⟩

/-- Opening a rule keeps a session sound. -/
theorem Sound.openRule {session : Session} (sound : session.Sound) (name : String) :
    (session.openRule name).1.Sound := by
  unfold Session.openRule
  split
  · rename_i next cursor hopen
    obtain ⟨_, free, unused, hrules, thawed, holds, place⟩ := Grammar.openRule_ok hopen
    have nobody : session.cursors = [] := by
      cases sound.writer with
      | idle nobody _ => exact nobody
      | writing _ holds => rw [free] at holds; cases holds
    have one : session.cursors ++ [cursor] = [cursor] := by rw [nobody, List.nil_append]
    refine ⟨?_, .writing one holds thawed place⟩
    rw [hrules]
    exact sound.wellFormed.append unused
  · exact sound

/-- Compiling keeps a session sound. -/
theorem Sound.compile {session : Session} (sound : session.Sound) : session.compile.1.Sound := by
  simp only [Session.compile, Grammar.compile]
  split
  · exact sound
  · rename_i idle
    refine ⟨sound.wellFormed, ?_⟩
    cases sound.writer with
    | idle nobody free => exact .idle nobody free
    | writing _ holds => simp [holds] at idle

/-- An edit keeps a session sound, whether it succeeds or not. -/
theorem Sound.edit {session : Session} (sound : session.Sound) (number : Nat) (edit : Edit) :
    (session.edit number edit).1.Sound := by
  unfold Session.edit
  split
  · exact sound
  · rename_i cursor found
    unfold Grammar.edit
    cases hattempt : session.grammar.attempt cursor edit with
    | error error => exact sound.release found
    | ok result =>
      obtain ⟨next, answer⟩ := result
      obtain ⟨thawed, holds, allowed, hperform⟩ := Grammar.attempt_ok hattempt
      obtain ⟨rfl, one, _, _, place⟩ := sound.of_cursor found
      obtain ⟨wellFormed, hfrozen, hanswer⟩ :=
        Grammar.perform_sound sound.wellFormed place allowed hperform
      cases answer with
      | none => exact ⟨wellFormed, .idle (by simp [one]) hanswer⟩
      | some moved =>
        obtain ⟨hwriter, hticket, moves⟩ := hanswer
        have hone : session.cursors.set 0 moved = [moved] := by simp [one]
        exact ⟨wellFormed, .writing hone (by simp [hwriter, holds, hticket])
          (hfrozen.trans thawed) moves⟩

/-- Every event keeps a session sound. -/
theorem Sound.step {session : Session} (sound : session.Sound) (event : Event) :
    (session.step event).Sound := by
  cases event with
  | openRule name => exact sound.openRule name
  | setOptions options =>
    simp only [Session.step, Session.setOptions, Grammar.setOptions]
    cases session.grammar.checkWritable none with
    | error error => exact sound
    | ok _ => exact sound.withOptions options
  | setMainRule name =>
    simp only [Session.step, Session.setMainRule, Grammar.setMainRule]
    cases session.grammar.checkWritable none with
    | error error => exact sound
    | ok _ => exact sound.withOptions (session.grammar.options.withMainRule name)
  | compile => exact sound.compile
  | edit number edit => exact sound.edit number edit
  | drop number =>
    simp only [Session.step, Session.drop]
    split
    · exact sound
    · rename_i cursor found
      exact sound.release found

/-- A session that has just begun is sound. -/
theorem sound_fresh (description : String) : (fresh description).Sound :=
  ⟨Rules.wellFormed_nil, .idle rfl rfl⟩

/-- Every session is sound that a fresh grammar can get to. -/
theorem Reachable.sound {session : Session} (h : session.Reachable) : session.Sound := by
  induction h with
  | fresh description => exact sound_fresh description
  | step event _ ih => exact ih.step event

/-- A session that is carried on stays one that a fresh grammar can get to. -/
theorem Reachable.run {session : Session} (h : session.Reachable) (events : List Event) :
    (session.run events).Reachable := by
  induction events generalizing session with
  | nil => exact h
  | cons event events ih => exact ih (h.step event)

end Session

/-- Rules that some session has written. -/
def Rules.Authored (rules : List Rule) : Prop :=
  ∃ session : Session, session.Reachable ∧ session.grammar.rules = rules

/-- What is written by a list of events is written in a session. -/
theorem Rules.authored_run (description : String) (events : List Session.Event) :
    Rules.Authored ((Session.fresh description).run events).grammar.rules :=
  ⟨_, (Session.Reachable.fresh description).run events, rfl⟩

/-- Rules that have been written in a session are well formed. -/
theorem Rules.Authored.wellFormed {rules : List Rule} (h : Rules.Authored rules) :
    Rules.WellFormed rules := by
  obtain ⟨session, reachable, rfl⟩ := h
  exact reachable.sound.wellFormed

end ChainGrammar
