import ChainGrammar.Proofs.Authoring.Invariant
import Mathlib.Data.List.Induction

/-!
# The shape of written rules

What the rules of a session look like at any time, said of the lists themselves
(`Session.Reachable.wellWritten`).  Names are distinct.  A rule has a definition, and only its last one can be
empty.  A definition begins with a symbol or a reference, and every argument follows a symbol with nothing
but arguments in between.

An open cursor stands at the last definition of the last rule and knows where the last symbol or reference is
(`Cursor.Stands`), so that a mark changes this segment and nothing else.  As long as no cursor is lost, the
definition at the open cursor is the only one that can be empty (`Session.Concluded.tight`).
-/

set_option autoImplicit false

namespace ChainGrammar

/-! ## Definitions -/

/-- Is the segment an argument of the symbol before it? -/
def Segment.isArgument : Segment → Bool
  | .parameter _ => true
  | .value => true
  | _ => false

/-- The segments of a definition follow each other as they may. -/
structure Definition.Shaped (definition : Definition) : Prop where
  begins : ∀ first ∈ definition.head?, first.isAnchor = true
  unsplit : Segment.alternation ∉ definition
  /-- Between an argument and the nearest symbol before it there are only arguments. -/
  arguments : ∀ front argument behind, definition = front ++ argument :: behind →
    argument.isArgument = true →
    ∃ earlier name params optional between, front = earlier ++ .symbol name params optional :: between ∧
      ∀ other ∈ between, other.isArgument = true
  limits : ∀ rule optional limit, .reference rule optional (.times limit) ∈ definition →
    2 ≤ limit.toNat

/-- An argument is in its place exactly where one may follow. -/
theorem Segment.place_of_isArgument {segment : Segment} (h : segment.isArgument = true)
    (before : Option Bool) :
    Segment.place before segment = if before = some true then some true else none := by
  cases segment with
  | parameter => rcases before with _ | _ | _ <;> rfl
  | value => rcases before with _ | _ | _ <;> rfl
  | symbol => cases h
  | reference => cases h
  | alternation => cases h

/-- Where an argument may follow there is a symbol with nothing but arguments behind it. -/
theorem Segment.exists_symbol_of_foldl_place {front : Definition}
    (h : front.foldl Segment.place (some false) = some true) :
    ∃ earlier name params optional between, front = earlier ++ .symbol name params optional :: between ∧
      ∀ other ∈ between, other.isArgument = true := by
  induction front using List.reverseRecOn with
  | nil => cases h
  | append_singleton front segment ih =>
    rw [List.foldl_append, List.foldl_cons, List.foldl_nil] at h
    cases hsegment : segment.isArgument with
    | true =>
      rw [place_of_isArgument hsegment] at h
      split at h
      · rename_i hfront
        obtain ⟨earlier, name, params, optional, between, rfl, all⟩ := ih hfront
        refine ⟨earlier, name, params, optional, between ++ [segment], by simp, fun other hother => ?_⟩
        rcases List.mem_append.1 hother with hother | hother
        · exact all other hother
        · obtain rfl := List.mem_singleton.1 hother
          exact hsegment
      · cases h
    | false =>
      generalize front.foldl Segment.place (some false) = before at h
      cases segment with
      | symbol name params optional => exact ⟨front, name, params, optional, [], by simp, by simp⟩
      | reference => rcases before with _ | _ <;> cases h
      | parameter => cases hsegment
      | value => cases hsegment
      | alternation => rcases before with _ | _ <;> cases h

/-- A definition in order has its shape. -/
theorem Ordered.shaped {definition : Definition} {mayFollow : Bool}
    (ordered : Ordered definition mayFollow) : definition.Shaped where
  begins := by
    intro first hfirst
    have hne : definition ≠ [] := by
      rintro rfl
      cases hfirst
    obtain ⟨segment, rest, rfl, anchor⟩ := ordered.exists_anchor hne
    obtain rfl : segment = first := by simpa using hfirst
    exact anchor
  unsplit := by
    intro hmem
    obtain ⟨front, behind, rfl⟩ := List.append_of_mem hmem
    obtain ⟨_, _, _, hplace, _⟩ := ordered.split
    cases hplace
  arguments := by
    rintro front argument behind rfl isArgument
    obtain ⟨before, _, hfront, hplace, _⟩ := ordered.split
    rw [Segment.place_of_isArgument isArgument] at hplace
    split at hplace
    · rename_i follows
      exact Segment.exists_symbol_of_foldl_place (hfront.trans follows)
    · cases hplace
  limits _ _ _ hmem := ordered.proper _ hmem

/-- A definition that is not empty has a symbol or a reference. -/
theorem Ordered.exists_anchor_mem {definition : Definition} {mayFollow : Bool}
    (ordered : Ordered definition mayFollow) (nonempty : definition ≠ []) :
    ∃ segment ∈ definition, segment.isAnchor = true := by
  obtain ⟨segment, rest, rfl, anchor⟩ := ordered.exists_anchor nonempty
  exact ⟨segment, List.mem_cons_self, anchor⟩

/-- A definition behind which no argument may follow ends in a reference, if it is not empty. -/
theorem Ordered.exists_reference {definition : Definition} (ordered : Ordered definition false)
    (nonempty : definition ≠ []) :
    ∃ front rule optional repeats, definition = front ++ [.reference rule optional repeats] := by
  obtain ⟨front, segment, rfl⟩ : ∃ front segment, definition = front ++ [segment] :=
    ⟨definition.dropLast, definition.getLast nonempty, (List.dropLast_append_getLast nonempty).symm⟩
  obtain ⟨before, after, _, hplace, hlast⟩ := ordered.split
  obtain rfl : after = false := Option.some.inj hlast
  cases segment with
  | reference rule optional repeats => exact ⟨front, rule, optional, repeats, rfl⟩
  | symbol | alternation => cases hplace
  | parameter | value => cases before <;> cases hplace

/-- Where there is a symbol or a reference, the definition splits at the last one. -/
theorem Segment.exists_lastAnchor {definition : Definition}
    (h : ∃ segment ∈ definition, segment.isAnchor = true) :
    ∃ front segment behind, definition = front ++ segment :: behind ∧ segment.isAnchor = true ∧
      (∀ other ∈ behind, other.isAnchor = false) ∧
      Segment.lastAnchor? definition = some front.length := by
  induction definition using List.reverseRecOn with
  | nil => simp at h
  | append_singleton front segment ih =>
    rw [lastAnchor?_append]
    cases hsegment : segment.isAnchor with
    | true => exact ⟨front, segment, [], rfl, hsegment, by simp, by simp⟩
    | false =>
      have hfront : ∃ segment ∈ front, segment.isAnchor = true := by
        obtain ⟨other, hother, anchor⟩ := h
        rcases List.mem_append.1 hother with hother | hother
        · exact ⟨other, hother, anchor⟩
        · obtain rfl := List.mem_singleton.1 hother
          rw [hsegment] at anchor
          cases anchor
      obtain ⟨first, last, behind, rfl, anchor, all, hlast⟩ := ih hfront
      refine ⟨first, last, behind ++ [segment], by simp, anchor, fun other hother => ?_, by simpa using hlast⟩
      rcases List.mem_append.1 hother with hother | hother
      · exact all other hother
      · obtain rfl := List.mem_singleton.1 hother
        exact hsegment

/-! ## Cursors -/

/-- The cursor points at the last rule, and its anchor at the last symbol or reference of the last
definition there; it has no anchor where that definition is empty. -/
inductive Cursor.Stands (cursor : Cursor) : List Rule → Prop where
  | empty {before : List Rule} {name : String} {earlier : List Definition}
      (rule : cursor.rule = before.length) (anchor : cursor.anchor = none) :
      Stands cursor (before ++ [⟨name, earlier ++ [[]]⟩])
  | written {before : List Rule} {name : String} {earlier : List Definition} {front : Definition}
      {segment : Segment} {behind : Definition} (rule : cursor.rule = before.length)
      (isAnchor : segment.isAnchor = true) (last : ∀ other ∈ behind, other.isAnchor = false)
      (anchor : cursor.anchor = some front.length) :
      Stands cursor (before ++ [⟨name, earlier ++ [front ++ segment :: behind]⟩])

/-- A cursor at the end of the open definition stands there with its anchor. -/
theorem Cursor.AtEnd.stands {cursor : Cursor} {rules : List Rule} (place : cursor.AtEnd rules) :
    cursor.Stands rules := by
  obtain ⟨before, name, earlier, opened, place⟩ := place
  rw [place.rules_eq]
  by_cases hopened : opened = []
  · subst hopened
    exact .empty place.rule place.anchor
  · obtain ⟨front, segment, behind, rfl, isAnchor, last, hanchor⟩ :=
      Segment.exists_lastAnchor (place.ordered.exists_anchor_mem hopened)
    exact .written place.rule isAnchor last (place.anchor.trans hanchor)

namespace Session

/-- The edit changes one segment, the one at the anchor of the cursor, and nothing else. -/
def Marks (session : Session) (number : Nat) (cursor : Cursor) (edit : Edit)
    (segment changed : Segment) : Prop :=
  ∃ before name earlier front behind,
    session.grammar.rules = before ++ [⟨name, earlier ++ [front ++ segment :: behind]⟩] ∧
    cursor.rule = before.length ∧ cursor.anchor = some front.length ∧
    session.edit number edit =
      ({ session with
        grammar := { session.grammar with
          rules := before ++ [⟨name, earlier ++ [front ++ changed :: behind]⟩] } },
        some (.ok (some cursor)))

/-- Does the event take away a cursor that has not come to its end?  Such a cursor is dropped, or its
edit fails. -/
def loses (session : Session) : Event → Bool
  | .drop number => (session.drop number).2
  | .edit number edit =>
    match (session.edit number edit).2 with
    | some (.error _) => true
    | _ => false
  | _ => false

/-- The states that a fresh grammar can get to without a cursor being lost. -/
inductive Concluded : Session → Prop where
  | fresh (description : String) : Concluded (fresh description)
  | step {session : Session} (event : Event) (before : Concluded session)
      (kept : session.loses event = false) : Concluded (session.step event)

/-- The rules are as they can be written, and so are the cursors. -/
structure WellWritten (session : Session) : Prop where
  names : (session.grammar.rules.map Rule.name).Nodup
  /-- Every rule has a definition, and only the last one can be empty. -/
  definitions : ∀ rule ∈ session.grammar.rules, ∃ earlier last,
    rule.definitions = earlier ++ [last] ∧ ∀ definition ∈ earlier, definition ≠ []
  shaped : ∀ rule ∈ session.grammar.rules, ∀ definition ∈ rule.definitions, definition.Shaped
  cursors : ∀ cursor ∈ session.cursors, cursor.Stands session.grammar.rules
  /-- Where a segment may be left out, this is noted at the symbol or reference at the anchor. -/
  optional : ∀ number cursor, session.cursors[number]? = some cursor →
    cursor.kind.isAfterSegment = true →
    (∃ name params optional, session.Marks number cursor .optional
      (.symbol name params optional) (.symbol name params true)) ∨
    ∃ rule optional repeats, session.Marks number cursor .optional
      (.reference rule optional repeats) (.reference rule true repeats)
  /-- Where a reference may be repeated, this is noted at the anchor. -/
  repeated : ∀ number cursor count, session.cursors[number]? = some cursor →
    cursor.kind = .reference →
    ∃ rule optional repeats, session.Marks number cursor (.repeated count)
      (.reference rule optional repeats) (.reference rule optional (.ofCount count))
  /-- An edit that is refused changes no rule. -/
  refused : ∀ number edit error, (session.edit number edit).2 = some (.error error) →
    (session.edit number edit).1.grammar.rules = session.grammar.rules

variable {session : Session}

/-- A mark changes the segment at the anchor and nothing else. -/
theorem Sound.marks (sound : session.Sound) {number : Nat} {cursor : Cursor}
    (found : session.cursors[number]? = some cursor) {before : List Rule} {name : String}
    {earlier : List Definition} {front : Definition} {segment : Segment} {behind : Definition}
    (place : cursor.IsAt session.grammar.rules before name earlier (front ++ segment :: behind))
    (anchor : cursor.anchor = some front.length) {edit : Edit} {change : Segment → Segment}
    (allowed : edit.isAllowedAfter cursor.kind = true)
    (performs : session.grammar.perform cursor edit =
      .ok (session.grammar.changeAnchor cursor change, some cursor)) :
    session.Marks number cursor edit segment (change segment) := by
  obtain ⟨rfl, one, holds, thawed, _⟩ := sound.of_cursor found
  have hrules := Grammar.rules_changeOpenDefinition place (·.modify front.length change)
  rw [modify_length_append] at hrules
  have hgrammar : session.grammar.changeAnchor cursor change =
      { session.grammar with
        rules := before ++ [⟨name, earlier ++ [front ++ change segment :: behind]⟩] } := by
    rw [← hrules, Grammar.changeAnchor, anchor]
    rfl
  have admitted : cursor.admits edit = true := by simp [Cursor.admits, allowed, anchor]
  refine ⟨before, name, earlier, front, behind, place.rules_eq, place.rule, anchor, ?_⟩
  rw [Session.edit, found]
  simp only [Grammar.edit, Grammar.attempt_eq_perform thawed holds admitted, performs, hgrammar]
  rw [one, List.set_cons_zero]

/-- A refused edit changes no rule. -/
theorem rules_edit_of_error {number : Nat} {edit : Edit} {error : AuthoringError}
    (h : (session.edit number edit).2 = some (.error error)) :
    (session.edit number edit).1.grammar.rules = session.grammar.rules := by
  unfold Session.edit Grammar.edit at h ⊢
  split at h
  · rfl
  · rename_i cursor found
    cases hattempt : session.grammar.attempt cursor edit with
    | error fault =>
      simp only [Grammar.release]
      split <;> rfl
    | ok result =>
      obtain ⟨next, _ | moved⟩ := result
      · simp [hattempt] at h
      · simp [hattempt] at h

/-- What every session keeps includes the shape of the rules and of the cursors. -/
theorem Sound.toWellWritten (sound : session.Sound) : session.WellWritten where
  names := sound.wellFormed.names
  definitions := by
    intro rule hrule
    have wellFormed := sound.wellFormed.each rule hrule
    exact ⟨rule.definitions.dropLast, rule.definitions.getLast wellFormed.nonempty,
      (List.dropLast_append_getLast wellFormed.nonempty).symm, wellFormed.closed⟩
  shaped := by
    intro rule hrule definition hdefinition
    obtain ⟨_, ordered⟩ := (sound.wellFormed.each rule hrule).ordered definition hdefinition
    exact ordered.shaped
  cursors := by
    intro cursor hcursor
    obtain ⟨number, found⟩ := List.mem_iff_getElem?.1 hcursor
    obtain ⟨_, _, _, _, place⟩ := sound.of_cursor found
    exact place.stands
  optional := by
    intro number cursor found written
    obtain ⟨_, _, _, _, before, name, earlier, opened, place⟩ := sound.of_cursor found
    obtain ⟨front, segment, behind, rfl, isAnchor, _, hanchor⟩ :=
      Segment.exists_lastAnchor (place.ordered.exists_anchor_mem (place.written.1 written))
    have marks : session.Marks number cursor .optional segment segment.markOptional :=
      sound.marks found place (place.anchor.trans hanchor) written rfl
    cases segment with
    | symbol name params optional => exact .inl ⟨name, params, optional, marks⟩
    | reference rule optional repeats => exact .inr ⟨rule, optional, repeats, marks⟩
    | parameter | value | alternation => cases isAnchor
  repeated := by
    intro number cursor count found hkind
    obtain ⟨_, _, _, _, before, name, earlier, opened, place⟩ := sound.of_cursor found
    have written := place.written
    have ordered := place.ordered
    rw [hkind] at written ordered
    obtain ⟨front, rule, optional, repeats, rfl⟩ := ordered.exists_reference (written.1 rfl)
    have hanchor := place.anchor
    rw [Segment.lastAnchor?_append] at hanchor
    have allowed : (Edit.repeated count).isAllowedAfter cursor.kind = true := by
      rw [hkind]
      rfl
    exact ⟨rule, optional, repeats, sound.marks found place hanchor allowed rfl⟩
  refused _ _ _ := rules_edit_of_error

end Session

/-! ## Cursors that come to their end -/

/-- No definition is empty. -/
def Rules.Filled (rules : List Rule) : Prop :=
  ∀ rule ∈ rules, ∀ definition ∈ rule.definitions, definition ≠ []

/-- If only the open definition can be empty and something has been written there, none is. -/
theorem Cursor.AtEnd.filled {cursor : Cursor} {rules : List Rule} (place : cursor.AtEnd rules)
    (wellFormed : Rules.WellFormed rules) (before : Rules.Filled rules.dropLast)
    (written : cursor.kind.isAfterSegment = true) : Rules.Filled rules := by
  obtain ⟨front, name, earlier, opened, place⟩ := place
  have hopened := place.written.1 written
  rw [place.rules_eq] at wellFormed before ⊢
  rw [List.dropLast_concat] at before
  have each := wellFormed.each ⟨name, earlier ++ [opened]⟩ (by simp)
  intro rule hrule definition hdefinition
  rcases List.mem_append.1 hrule with hrule | hrule
  · exact before rule hrule definition hdefinition
  · obtain rfl := List.mem_singleton.1 hrule
    rcases List.mem_append.1 hdefinition with hdefinition | hdefinition
    · exact each.closed definition (by simpa using hdefinition)
    · obtain rfl := List.mem_singleton.1 hdefinition
      exact hopened

namespace Grammar

variable {grammar next : Grammar} {cursor : Cursor}

/-- A change of the rule at the cursor leaves the rules before it alone. -/
theorem dropLast_changeRule (place : cursor.AtEnd grammar.rules) (change : Rule → Rule) :
    (grammar.changeRule cursor change).rules.dropLast = grammar.rules.dropLast := by
  obtain ⟨before, name, earlier, opened, place⟩ := place
  simp only [changeRule, place.rules_eq, place.rule, modify_length_append, List.dropLast_concat]

/-- A mark leaves the rules before the cursor alone. -/
theorem dropLast_changeAnchor (place : cursor.AtEnd grammar.rules) (change : Segment → Segment) :
    (grammar.changeAnchor cursor change).rules.dropLast = grammar.rules.dropLast := by
  unfold changeAnchor
  split
  · rfl
  · exact dropLast_changeRule place _

/-- An edit in its place leaves at most the open definition empty, and none if it closes the cursor. -/
theorem perform_filled (wellFormed : Rules.WellFormed grammar.rules)
    (place : cursor.AtEnd grammar.rules) (before : Rules.Filled grammar.rules.dropLast) {edit : Edit}
    {answer : Option Cursor} (allowed : edit.isAllowedAfter cursor.kind = true)
    (h : grammar.perform cursor edit = .ok (next, answer)) :
    Rules.Filled next.rules.dropLast ∧ (answer = none → Rules.Filled next.rules) := by
  cases edit with
  | rule name =>
    cases hadd : grammar.addRule name with
    | error error => simp [perform, hadd, bind, Except.bind] at h
    | ok grown =>
      obtain ⟨_, rfl⟩ := addRule_ok hadd
      simp only [perform, hadd, bind, Except.bind, pure, Except.pure, Except.ok.injEq,
        Prod.mk.injEq] at h
      obtain ⟨rfl, rfl⟩ := h
      refine ⟨?_, nofun⟩
      rw [List.dropLast_concat]
      exact place.filled wellFormed before allowed
  | finish =>
    obtain ⟨rfl, rfl⟩ := Prod.mk.inj (Except.ok.inj h)
    have filled := place.filled wellFormed before allowed
    exact ⟨before, fun _ => filled⟩
  | optional =>
    obtain ⟨rfl, rfl⟩ := Prod.mk.inj (Except.ok.inj h)
    exact ⟨by rwa [dropLast_changeAnchor place], nofun⟩
  | repeated =>
    obtain ⟨rfl, rfl⟩ := Prod.mk.inj (Except.ok.inj h)
    exact ⟨by rwa [dropLast_changeAnchor place], nofun⟩
  | symbol =>
    obtain ⟨rfl, rfl⟩ := Prod.mk.inj (Except.ok.inj h)
    exact ⟨by rwa [append, dropLast_changeRule place], nofun⟩
  | reference =>
    obtain ⟨rfl, rfl⟩ := Prod.mk.inj (Except.ok.inj h)
    exact ⟨by rwa [append, dropLast_changeRule place], nofun⟩
  | parameter =>
    obtain ⟨rfl, rfl⟩ := Prod.mk.inj (Except.ok.inj h)
    exact ⟨by rwa [append, dropLast_changeRule place], nofun⟩
  | value =>
    obtain ⟨rfl, rfl⟩ := Prod.mk.inj (Except.ok.inj h)
    exact ⟨by rwa [append, dropLast_changeRule place], nofun⟩
  | alternative =>
    obtain ⟨rfl, rfl⟩ := Prod.mk.inj (Except.ok.inj h)
    exact ⟨by rwa [dropLast_changeRule place], nofun⟩

end Grammar

namespace Session

variable {session : Session}

/-- At most the open definition is empty, and none while no cursor is open. -/
structure Tight (session : Session) : Prop where
  before : Rules.Filled session.grammar.rules.dropLast
  done : session.cursors = [] → Rules.Filled session.grammar.rules

/-- Opening a rule leaves at most its own definition empty. -/
theorem Tight.openRule (tight : session.Tight) (sound : session.Sound) (name : String) :
    (session.openRule name).1.Tight := by
  unfold Session.openRule
  split
  · rename_i next cursor hopen
    obtain ⟨_, free, _, hrules, _⟩ := Grammar.openRule_ok hopen
    have nobody : session.cursors = [] := by
      cases sound.writer with
      | idle nobody _ => exact nobody
      | writing _ holds => rw [free] at holds; cases holds
    refine ⟨?_, fun h => absurd h (by simp)⟩
    rw [hrules, List.dropLast_concat]
    exact tight.done nobody
  · exact tight

/-- An edit that does not fail leaves at most the open definition empty. -/
theorem Tight.edit (tight : session.Tight) (sound : session.Sound) {number : Nat} {edit : Edit}
    (kept : session.loses (.edit number edit) = false) : (session.edit number edit).1.Tight := by
  unfold loses Session.edit Grammar.edit at kept
  unfold Session.edit Grammar.edit
  split
  · exact tight
  · rename_i cursor found
    cases hattempt : session.grammar.attempt cursor edit with
    | error error => simp [found, hattempt] at kept
    | ok result =>
      obtain ⟨next, answer⟩ := result
      obtain ⟨_, _, allowed, hperform⟩ := Grammar.attempt_ok hattempt
      obtain ⟨rfl, one, _, _, place⟩ := sound.of_cursor found
      obtain ⟨before, done⟩ :=
        Grammar.perform_filled sound.wellFormed place tight.before allowed hperform
      cases answer with
      | none => exact ⟨before, fun _ => done rfl⟩
      | some moved => exact ⟨before, fun h => absurd h (by simp [one])⟩

/-- An event that takes no cursor away leaves at most the open definition empty. -/
theorem Tight.step (tight : session.Tight) (sound : session.Sound) {event : Event}
    (kept : session.loses event = false) : (session.step event).Tight := by
  cases event with
  | openRule name => exact tight.openRule sound name
  | setOptions options =>
    simp only [Session.step, Session.setOptions, Grammar.setOptions]
    cases session.grammar.checkWritable none with
    | error error => exact tight
    | ok _ => exact ⟨tight.before, tight.done⟩
  | setMainRule name =>
    simp only [Session.step, Session.setMainRule, Grammar.setMainRule]
    cases session.grammar.checkWritable none with
    | error error => exact tight
    | ok _ => exact ⟨tight.before, tight.done⟩
  | compile =>
    simp only [Session.step, Session.compile, Grammar.compile]
    split
    · exact tight
    · exact ⟨tight.before, tight.done⟩
  | edit number edit => exact tight.edit sound kept
  | drop number =>
    simp only [loses, Session.drop] at kept
    simp only [Session.step, Session.drop]
    split
    · exact tight
    · rename_i found
      simp [found] at kept

/-- Without a lost cursor a session is one that a fresh grammar can get to. -/
theorem Concluded.reachable (h : session.Concluded) : session.Reachable := by
  induction h with
  | fresh description => exact .fresh description
  | step event _ _ ih => exact .step event ih

/-- Without a lost cursor at most the open definition is empty. -/
theorem Concluded.tight (h : session.Concluded) : session.Tight := by
  induction h with
  | fresh description =>
    have none : Rules.Filled [] := fun rule hrule => absurd hrule List.not_mem_nil
    exact ⟨none, fun _ => none⟩
  | step event before kept ih => exact ih.step before.reachable.sound kept

/-- Are no cursors lost in a list of events? -/
def keepsCursors (session : Session) : List Event → Bool
  | [] => true
  | event :: events => !session.loses event && (session.step event).keepsCursors events

/-- A session that is carried on without a cursor being lost. -/
theorem Concluded.run (h : session.Concluded) {events : List Event}
    (kept : session.keepsCursors events = true) : (session.run events).Concluded := by
  induction events generalizing session with
  | nil => exact h
  | cons event events ih =>
    rw [keepsCursors, Bool.and_eq_true, Bool.not_eq_true'] at kept
    exact ih (h.step event kept.1) kept.2

/-- Every session is well written, and if no cursor has been lost and none is open, no definition is
empty. -/
theorem Reachable.wellWritten (h : session.Reachable) :
    session.WellWritten ∧
      (session.Concluded → session.cursors = [] →
        ∀ rule ∈ session.grammar.rules, ∀ definition ∈ rule.definitions, definition ≠ []) :=
  ⟨h.sound.toWellWritten, fun concluded => concluded.tight.done⟩

/-- How a rule is written whose second definition is a reference that may be repeated. -/
def listEvents : List Event :=
  [.openRule "list", .edit 0 (.symbol "item" []), .edit 0 .value, .edit 0 .optional,
    .edit 0 .alternative, .edit 0 (.reference "list"), .edit 0 (.repeated 3), .edit 0 .finish]

/-- A rule that has been written up to its end is well written and has no empty definition.  In the next rule a
cursor behind a parameter stands at the symbol before it, and one behind a reference at the reference: a mark changes
this segment and nothing else. -/
theorem wellWritten_list :
    let closed := (fresh "").run listEvents
    let declared := closed.run [.openRule "tail", .edit 0 (.symbol "last" []), .edit 0 (.parameter "name")]
    let referring := declared.run [.edit 0 (.reference "list")]
    (closed.Reachable ∧ closed.Concluded ∧ closed.cursors = [] ∧ closed.WellWritten ∧
      ∀ rule ∈ closed.grammar.rules, ∀ definition ∈ rule.definitions, definition ≠ []) ∧
    (declared.Reachable ∧ declared.WellWritten ∧ declared.cursors = [⟨1, 1, .parameter, some 0⟩] ∧
      Cursor.Stands ⟨1, 1, .parameter, some 0⟩ declared.grammar.rules ∧
      declared.Marks 0 ⟨1, 1, .parameter, some 0⟩ .optional
        (.symbol "last" [] false) (.symbol "last" [] true)) ∧
    (referring.Reachable ∧ referring.WellWritten ∧ referring.cursors = [⟨1, 1, .reference, some 2⟩] ∧
      Cursor.Stands ⟨1, 1, .reference, some 2⟩ referring.grammar.rules ∧
      referring.Marks 0 ⟨1, 1, .reference, some 2⟩ (.repeated 3)
        (.reference "list" false .once) (.reference "list" false (.times 3))) := by
  intro closed declared referring
  have concluded : closed.Concluded := (Concluded.fresh "").run rfl
  have reachable : closed.Reachable := (Reachable.fresh "").run listEvents
  have behindParameter : declared.Reachable := reachable.run _
  have behindReference : referring.Reachable := behindParameter.run _
  obtain ⟨closedWritten, done⟩ := Reachable.wellWritten reachable
  obtain ⟨declaredWritten, _⟩ := Reachable.wellWritten behindParameter
  obtain ⟨referringWritten, _⟩ := Reachable.wellWritten behindReference
  refine ⟨⟨reachable, concluded, rfl, closedWritten, done concluded rfl⟩,
    ⟨behindParameter, declaredWritten, rfl, declaredWritten.cursors _ (.head _), ?_⟩,
    ⟨behindReference, referringWritten, rfl, referringWritten.cursors _ (.head _), ?_⟩⟩
  · exact ⟨closed.grammar.rules, "tail", [], [], [.parameter "name"], rfl, rfl, rfl, by decide +kernel⟩
  · exact ⟨closed.grammar.rules, "tail", [], [.symbol "last" [] false, .parameter "name"], [],
      rfl, rfl, rfl, by decide +kernel⟩

end Session

end ChainGrammar
