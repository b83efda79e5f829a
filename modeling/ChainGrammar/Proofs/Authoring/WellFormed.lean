import ChainGrammar.Authoring.Session
import Mathlib.Data.List.Basic

/-!
# Rules in order

What the rules of a grammar look like while they are written.  Arguments are declared behind a symbol,
with nothing but arguments in between, so a definition that is not empty begins with a symbol or a
reference.  Only the last definition of a rule can be empty: it is the one that is open, or was when its
cursor was dropped.  A limited repetition admits at least two occurrences.

The place of arguments is a fold over the segments (`Segment.place`), so appending a segment asks one
question about the last answer, and a mark on a segment does not change the fold at all.
-/

set_option autoImplicit false

namespace ChainGrammar

/-- A limit on the number of occurrences is at least two. -/
def Repeat.Proper : Repeat → Prop
  | .times limit => 2 ≤ limit.toNat
  | _ => True

/-- A count that is given at a cursor never makes a limit below two. -/
theorem Repeat.proper_ofCount (count : Int64) : (Repeat.ofCount count).Proper := by
  unfold Repeat.ofCount
  split
  · trivial
  · split
    · trivial
    · rename_i negative single
      have hlimit : min count.toInt.toNat Repeat.largestLimit < 2 ^ 32 := by
        unfold Repeat.largestLimit
        omega
      have htwo : 2 ≤ min count.toInt.toNat Repeat.largestLimit := by
        unfold Repeat.largestLimit
        omega
      change 2 ≤ (UInt32.ofNat (min count.toInt.toNat Repeat.largestLimit)).toNat
      rw [UInt32.toNat_ofNat', Nat.mod_eq_of_lt hlimit]
      exact htwo

namespace Segment

/-- The repetition of a reference is a proper one. -/
def Proper : Segment → Prop
  | .reference _ _ repeats => repeats.Proper
  | _ => True

/-- May an argument stand behind the segment?  There is no answer where the segment itself is out of
place, or one before it. -/
def place : Option Bool → Segment → Option Bool
  | some _, .symbol .. => some true
  | some _, .reference .. => some false
  | some true, .parameter _ => some true
  | some true, .value => some true
  | _, _ => none

/-- Behind a segment that is out of place nothing is in place. -/
theorem foldl_place_none (definition : Definition) : definition.foldl place none = none := by
  induction definition with
  | nil => rfl
  | cons segment rest ih => exact ih

/-- The first of some segments in place is in place itself. -/
theorem exists_of_foldl_place_cons {before : Option Bool} {segment : Segment} {rest : Definition} {last : Bool}
    (placed : List.foldl place before (segment :: rest) = some last) :
    ∃ after, place before segment = some after ∧ rest.foldl place (some after) = some last := by
  rw [List.foldl_cons] at placed
  cases hplace : place before segment with
  | none =>
    rw [hplace, foldl_place_none] at placed
    cases placed
  | some after => exact ⟨after, rfl, by rwa [hplace] at placed⟩

/-- The number of segments so far and the position of the last symbol or reference among them. -/
def trackAnchor : Nat × Option Nat → Segment → Nat × Option Nat
  | (count, last), segment => (count + 1, if segment.isAnchor then some count else last)

/-- The position of the last symbol or reference of a definition. -/
def lastAnchor? (definition : Definition) : Option Nat := (definition.foldl trackAnchor (0, none)).2

/-- The segments are counted. -/
theorem foldl_trackAnchor_fst (definition : Definition) (start : Nat × Option Nat) :
    (definition.foldl trackAnchor start).1 = start.1 + definition.length := by
  induction definition generalizing start with
  | nil => rfl
  | cons segment rest ih =>
    rw [List.foldl_cons, ih, List.length_cons]
    simp only [trackAnchor]
    omega

/-- A segment that is appended becomes the last symbol or reference if it is one. -/
theorem lastAnchor?_append (definition : Definition) (segment : Segment) :
    lastAnchor? (definition ++ [segment]) =
      if segment.isAnchor then some definition.length else lastAnchor? definition := by
  have hcount := foldl_trackAnchor_fst definition (0, none)
  simp only [lastAnchor?, List.foldl_append, List.foldl_cons, List.foldl_nil, trackAnchor]
  rw [hcount, Nat.zero_add]

end Segment

/-- A change of one element that a fold does not see leaves the fold alone. -/
theorem foldl_modify_of_eq {α β : Type} {step : β → α → β} {change : α → α}
    (same : ∀ b a, step b (change a) = step b a) (l : List α) (i : Nat) (b : β) :
    (l.modify i change).foldl step b = l.foldl step b := by
  induction l generalizing i b with
  | nil => simp
  | cons a l ih =>
    cases i with
    | zero => simp [same]
    | succ i => simp [ih]

/-- Changing the element behind a list of known length. -/
theorem modify_length_append {α : Type} (before : List α) (a : α) (behind : List α) (change : α → α) :
    (before ++ a :: behind).modify before.length change = before ++ change a :: behind := by
  induction before with
  | nil => rfl
  | cons b before ih => rw [List.cons_append, List.length_cons, List.modify_succ_cons, ih]; rfl

/-- A definition in order; the truth value tells whether an argument may follow. -/
structure Ordered (definition : Definition) (argumentMayFollow : Bool) : Prop where
  placed : definition.foldl Segment.place (some false) = some argumentMayFollow
  proper : ∀ segment ∈ definition, segment.Proper

namespace Ordered

variable {definition : Definition} {mayFollow : Bool}

/-- Nothing has been written yet. -/
theorem nil : Ordered [] false := ⟨rfl, by simp⟩

/-- A segment in its place is appended. -/
theorem append (ordered : Ordered definition mayFollow) {segment : Segment} {next : Bool}
    (inPlace : segment.place (some mayFollow) = some next) (proper : segment.Proper) :
    Ordered (definition ++ [segment]) next := by
  refine ⟨?_, fun other hother => ?_⟩
  · rw [List.foldl_append, ordered.placed]
    exact inPlace
  · rcases List.mem_append.1 hother with hother | hother
    · exact ordered.proper other hother
    · obtain rfl := List.mem_singleton.1 hother
      exact proper

/-- A mark on a segment leaves the definition in order. -/
theorem modify (ordered : Ordered definition mayFollow) {change : Segment → Segment}
    (same : ∀ b segment, Segment.place b (change segment) = Segment.place b segment)
    (proper : ∀ segment : Segment, segment.Proper → (change segment).Proper) (i : Nat) :
    Ordered (definition.modify i change) mayFollow := by
  refine ⟨by rw [foldl_modify_of_eq same, ordered.placed], fun segment hsegment => ?_⟩
  obtain ⟨j, hj, rfl⟩ := List.mem_iff_getElem.1 hsegment
  rw [List.getElem_modify]
  have hmem := List.getElem_mem (l := definition) (n := j) (by simpa using hj)
  split
  · exact proper _ (ordered.proper _ hmem)
  · exact ordered.proper _ hmem

/-- A definition that is not empty begins with a symbol or a reference. -/
theorem exists_anchor (ordered : Ordered definition mayFollow) (nonempty : definition ≠ []) :
    ∃ segment rest, definition = segment :: rest ∧ segment.isAnchor = true := by
  cases definition with
  | nil => exact absurd rfl nonempty
  | cons segment rest =>
    refine ⟨segment, rest, rfl, ?_⟩
    obtain ⟨_, hplace, _⟩ := Segment.exists_of_foldl_place_cons ordered.placed
    cases segment with
    | symbol | reference => rfl
    | parameter | value | alternation => cases hplace

/-- Every segment of a definition in order is in its place, and so are those before and behind it. -/
theorem split {front behind : Definition} {segment : Segment}
    (ordered : Ordered (front ++ segment :: behind) mayFollow) :
    ∃ before after, front.foldl Segment.place (some false) = some before ∧
      Segment.place (some before) segment = some after ∧
      behind.foldl Segment.place (some after) = some mayFollow := by
  have placed := ordered.placed
  rw [List.foldl_append] at placed
  obtain ⟨after, hplace, hbehind⟩ := Segment.exists_of_foldl_place_cons placed
  cases hfront : front.foldl Segment.place (some false) with
  | none =>
    rw [hfront] at hplace
    cases segment <;> cases hplace
  | some before => exact ⟨before, after, rfl, by rwa [hfront] at hplace, hbehind⟩

end Ordered

/-- A rule as it can be written: its definitions are in order, and only the last one can be empty. -/
structure Rule.WellFormed (rule : Rule) : Prop where
  nonempty : rule.definitions ≠ []
  ordered : ∀ definition ∈ rule.definitions, ∃ mayFollow, Ordered definition mayFollow
  closed : ∀ definition ∈ rule.definitions.dropLast, definition ≠ []

/-- A rule that has just been opened is well formed. -/
theorem Rule.wellFormed_opened (name : String) : (Rule.opened name).WellFormed where
  nonempty := by simp [Rule.opened]
  ordered := by
    intro definition hdefinition
    obtain rfl : definition = [] := by simpa [Rule.opened] using hdefinition
    exact ⟨false, .nil⟩
  closed := by simp [Rule.opened]

/-- The open definition of a well-formed rule is replaced by one in order. -/
theorem Rule.WellFormed.replaceLast {name : String} {earlier : List Definition}
    {opened changed : Definition} (h : Rule.WellFormed ⟨name, earlier ++ [opened]⟩)
    (ordered : ∃ mayFollow, Ordered changed mayFollow) :
    Rule.WellFormed ⟨name, earlier ++ [changed]⟩ where
  nonempty := by simp
  ordered := by
    intro definition hdefinition
    rcases List.mem_append.1 hdefinition with hdefinition | hdefinition
    · exact h.ordered definition (List.mem_append_left _ hdefinition)
    · obtain rfl := List.mem_singleton.1 hdefinition
      exact ordered
  closed := by simpa using h.closed

/-- Behind an open definition that is not empty another one is opened. -/
theorem Rule.WellFormed.openNext {name : String} {earlier : List Definition} {opened : Definition}
    (h : Rule.WellFormed ⟨name, earlier ++ [opened]⟩) (written : opened ≠ []) :
    Rule.WellFormed ⟨name, earlier ++ [opened] ++ [[]]⟩ where
  nonempty := by simp
  ordered := by
    intro definition hdefinition
    rcases List.mem_append.1 hdefinition with hdefinition | hdefinition
    · exact h.ordered definition hdefinition
    · obtain rfl := List.mem_singleton.1 hdefinition
      exact ⟨false, .nil⟩
  closed := by
    intro definition hdefinition
    rw [List.dropLast_concat] at hdefinition
    rcases List.mem_append.1 hdefinition with hdefinition | hdefinition
    · exact h.closed definition (by simpa using hdefinition)
    · obtain rfl := List.mem_singleton.1 hdefinition
      exact written

/-- Rules as they can be written: with distinct names, each in order. -/
structure Rules.WellFormed (rules : List Rule) : Prop where
  names : (Rules.names rules).Nodup
  each : ∀ rule ∈ rules, rule.WellFormed

/-- Nothing has been written yet. -/
theorem Rules.wellFormed_nil : Rules.WellFormed [] := ⟨List.nodup_nil, by simp⟩

/-- A rule is opened under a name that is not in use. -/
theorem Rules.WellFormed.append {rules : List Rule} (h : Rules.WellFormed rules) {name : String}
    (unused : Rules.find? rules name = none) : Rules.WellFormed (rules ++ [Rule.opened name]) where
  names := by
    have hfresh : name ∉ Rules.names rules := by
      intro hmem
      obtain ⟨rule, hrule, rfl⟩ := List.mem_map.1 hmem
      have := List.find?_eq_none.1 unused rule hrule
      simp at this
    rw [Rules.names, List.map_append, List.nodup_append]
    refine ⟨h.names, by simp, fun a ha b hb => ?_⟩
    obtain rfl : b = name := by simpa [Rule.opened] using hb
    rintro rfl
    exact hfresh ha
  each := by
    intro rule hrule
    rcases List.mem_append.1 hrule with hrule | hrule
    · exact h.each rule hrule
    · obtain rfl := List.mem_singleton.1 hrule
      exact Rule.wellFormed_opened name

/-- The last rule is replaced by a well-formed one of the same name. -/
theorem Rules.WellFormed.replaceLast {before : List Rule} {last changed : Rule}
    (h : Rules.WellFormed (before ++ [last])) (name : changed.name = last.name)
    (each : changed.WellFormed) : Rules.WellFormed (before ++ [changed]) where
  names := by
    have := h.names
    simpa [Rules.names, name] using this
  each := by
    intro rule hrule
    rcases List.mem_append.1 hrule with hrule | hrule
    · exact h.each rule (List.mem_append_left _ hrule)
    · obtain rfl := List.mem_singleton.1 hrule
      exact each

end ChainGrammar
