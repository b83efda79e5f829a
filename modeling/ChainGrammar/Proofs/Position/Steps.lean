import ChainGrammar.Position.Walk
import Mathlib.Data.List.Basic

/-!
# What one step of a walk does

Handling a task has one of twelve outcomes (`Walk.Handles`), and every property of walks is proved by
going through them.  A walk only ever adds to its tables (`Walk.Extends`), provided that the numbers of
its nestings are below the next one to be given out.
-/

set_option autoImplicit false

namespace ChainGrammar

/-- The node of the rule whose definitions are entered at a node. -/
def Tree.opens? (tree : Tree) (id : Nat) : Option Nat :=
  match tree.label id with
  | .rule .. => some id
  | .backEdge .. => tree.target? id
  | _ => none

/-- The nesting of the given number, if there is to be one, is in the table. -/
def Nesting.Present (nestings : Std.TreeMap Nat Nesting) (nesting : Option Nat) : Prop :=
  ∀ number, nesting = some number → number ∈ nestings

/-- The depth at which a nesting of a table stands. -/
def Nesting.depthIn (nestings : Std.TreeMap Nat Nesting) : Option Nat → Nat
  | none => 0
  | some number => ((nestings[number]?).map fun nesting => nesting.depth).getD 0

namespace Walk

variable {tree : Tree} {walk after : Walk} {task : Task} {led : List Task}

/-- Enter an item, and offer it if it is a method. -/
def see (tree : Tree) (walk : Walk) (item : Item) : Walk :=
  { walk with
    entered := walk.entered.insert item
    found := if (tree.label item.node).isMethod then walk.found.push item else walk.found }

/-- Finish a nesting. -/
def finish (walk : Walk) (number : Nat) : Walk :=
  { walk with finished := walk.finished.insert number }

/-- The tasks that an item leads to: what it opens, and what comes after it if it may be left out. -/
def behind (tree : Tree) (item : Item) : List Task :=
  ((tree.opens? item.node).map fun body => Task.descend ⟨body, item.node, 1⟩ item.nesting).toList ++
    if (tree.label item.node).optional then [Task.advance item] else []

/-- The tasks that an opened frame leads to. -/
def alternatives (tree : Tree) (frame : Frame) (number : Nat) : List Task :=
  (tree.body frame.body).map fun node => Task.enter ⟨node, some number⟩

/-- The tasks that come from leaving a frame for a nesting. -/
def left (tree : Tree) (frame : Frame) (parent : Option Nat) : List Task :=
  let repeats := (tree.label frame.origin).repeats
  (if repeats.allowsAnother frame.iteration then [Task.descend (frame.following repeats) parent]
    else []) ++ [.advance ⟨frame.origin, parent⟩]

/-- What handling a task comes to: the walk afterwards and the tasks that are led to. -/
inductive Handles (tree : Tree) (walk : Walk) : Task → Walk → List Task → Prop where
  | known {item : Item} (entered : item ∈ walk.entered) : Handles tree walk (.enter item) walk []
  | sees {item : Item} (fresh : item ∉ walk.entered) :
      Handles tree walk (.enter item) (walk.see tree item) (behind tree item)
  | tooDeep {frame : Frame} {parent : Option Nat}
      (deep : tree.maxDepth < (walk.levelOn tree frame parent).depth) :
      Handles tree walk (.descend frame parent) walk []
  | opens {frame : Frame} {parent : Option Nat}
      (within : (walk.levelOn tree frame parent).depth ≤ tree.maxDepth)
      (fresh : walk.opened[walk.levelOn tree frame parent]? = none) :
      Handles tree walk (.descend frame parent)
        (walk.openNesting (walk.levelOn tree frame parent) parent)
        (alternatives tree frame walk.nextNesting)
  | shares {frame : Frame} {parent : Option Nat} {number : Nat}
      (within : (walk.levelOn tree frame parent).depth ≤ tree.maxDepth)
      (isOpen : walk.opened[walk.levelOn tree frame parent]? = some number)
      (known : parent ∈ walk.parents number) :
      Handles tree walk (.descend frame parent) walk (alternatives tree frame number)
  | joins {frame : Frame} {parent : Option Nat} {number : Nat}
      (within : (walk.levelOn tree frame parent).depth ≤ tree.maxDepth)
      (isOpen : walk.opened[walk.levelOn tree frame parent]? = some number)
      (fresh : parent ∉ walk.parents number) :
      Handles tree walk (.descend frame parent) (walk.addParent number parent)
        ((if number ∈ walk.finished then [Task.resume number parent] else []) ++
          alternatives tree frame number)
  | goesOn {item : Item} {next : Nat} (found : tree.next? item.node = some next) :
      Handles tree walk (.advance item) walk [.enter ⟨next, item.nesting⟩]
  | completes {node : Nat} (last : tree.next? node = none) :
      Handles tree walk (.advance ⟨node, none⟩) { walk with complete := true } []
  | ended {node number : Nat} (last : tree.next? node = none) (done : number ∈ walk.finished) :
      Handles tree walk (.advance ⟨node, some number⟩) walk []
  | finishes {node number : Nat} (last : tree.next? node = none) (fresh : number ∉ walk.finished) :
      Handles tree walk (.advance ⟨node, some number⟩) (walk.finish number)
        ((walk.parents number).map (Task.resume number))
  | lost {number : Nat} {parent : Option Nat} (missing : walk.nestings[number]? = none) :
      Handles tree walk (.resume number parent) walk []
  | resumes {number : Nat} {parent : Option Nat} {nesting : Nesting}
      (found : walk.nestings[number]? = some nesting) :
      Handles tree walk (.resume number parent) walk (left tree nesting.frame parent)

/-- Entering an item. -/
theorem enter_handles (tree : Tree) (walk : Walk) (item : Item) :
    Handles tree walk (.enter item) (walk.enter tree item).1 (walk.enter tree item).2 := by
  unfold enter
  split
  · rename_i hentered
    exact .known (Std.TreeSet.mem_iff_contains.2 hentered)
  · rename_i hfresh
    have hsees : Handles tree walk (.enter item) (walk.see tree item) (behind tree item) :=
      .sees fun h => hfresh (Std.TreeSet.mem_iff_contains.1 h)
    unfold see behind Tree.opens? at hsees
    cases hlabel : tree.label item.node with
    | root => simpa [hlabel, Label.isMethod] using hsees
    | method => simpa [hlabel, Label.isMethod] using hsees
    | rule => simpa [hlabel, Label.isMethod] using hsees
    | backEdge =>
      cases htarget : tree.target? item.node <;>
        simpa [hlabel, htarget, Label.isMethod] using hsees

/-- Opening a frame. -/
theorem descend_handles (tree : Tree) (walk : Walk) (frame : Frame) (parent : Option Nat) :
    Handles tree walk (.descend frame parent) (walk.descend tree frame parent).1
      (walk.descend tree frame parent).2 := by
  unfold descend
  dsimp only
  split
  · rename_i hdeep
    exact .tooDeep hdeep
  · rename_i hwithin
    split
    · rename_i hfresh
      exact .opens (Nat.le_of_not_lt hwithin) hfresh
    · rename_i number hopen
      split
      · rename_i hknown
        exact .shares (Nat.le_of_not_lt hwithin) hopen (by simpa using hknown)
      · rename_i hnew
        have hjoins := Handles.joins (Nat.le_of_not_lt hwithin) hopen
          (by simpa using hnew : parent ∉ walk.parents number)
        simpa only [Std.TreeSet.mem_iff_contains, alternatives] using hjoins

/-- Going on behind a node. -/
theorem advance_handles (tree : Tree) (walk : Walk) (item : Item) :
    Handles tree walk (.advance item) (walk.advance tree item).1 (walk.advance tree item).2 := by
  obtain ⟨node, nesting⟩ := item
  unfold advance
  split
  · rename_i next hnext
    exact .goesOn hnext
  · rename_i hlast
    cases nesting with
    | none => exact .completes hlast
    | some number =>
      dsimp only
      split
      · rename_i hdone
        exact .ended hlast (Std.TreeSet.mem_iff_contains.2 hdone)
      · rename_i hfresh
        exact .finishes hlast fun h => hfresh (Std.TreeSet.mem_iff_contains.1 h)

/-- Every task is handled in one of the twelve ways. -/
theorem perform_handles (tree : Tree) (walk : Walk) (task : Task) :
    Handles tree walk task (walk.perform tree task).1 (walk.perform tree task).2 := by
  cases task with
  | enter item => exact enter_handles tree walk item
  | descend frame parent => exact descend_handles tree walk frame parent
  | advance item => exact advance_handles tree walk item
  | resume number parent =>
    cases hfound : walk.nestings[number]? with
    | none =>
      have hlost : Handles tree walk (.resume number parent) walk [] := .lost hfound
      simpa [perform, resume, hfound] using hlost
    | some nesting =>
      have hresumes : Handles tree walk (.resume number parent) walk (left tree nesting.frame parent) :=
        .resumes hfound
      simpa [perform, resume, hfound, left] using hresumes

/-- A task is handled in only one way. -/
theorem Handles.unique {after' : Walk} {led' : List Task} (h : Handles tree walk task after led)
    (h' : Handles tree walk task after' led') : after = after' ∧ led = led' := by
  -- in every other combination of ways one is excluded by what the other one found
  cases h with
  | known entered =>
    cases h' with
    | known => exact ⟨rfl, rfl⟩
    | sees fresh => exact absurd entered fresh
  | sees fresh =>
    cases h' with
    | known entered => exact absurd entered fresh
    | sees => exact ⟨rfl, rfl⟩
  | tooDeep | opens | shares | joins => cases h' <;> first | omega | simp_all
  | goesOn | completes | ended | finishes => cases h' <;> simp_all
  | lost | resumes => cases h' <;> simp_all

/-! ## Many steps -/

/-- The tasks of an agenda and those that they lead to, in the order in which they are handled, at most as many as the
given number. -/
def handledFor (tree : Tree) : Nat → Walk → List Task → List Task
  | 0, _, _ => []
  | _ + 1, _, [] => []
  | limit + 1, walk, task :: agenda =>
    let (after, led) := walk.perform tree task
    task :: handledFor tree limit after (led ++ agenda)

/-- What every step keeps of the tasks handled so far, the walk and its agenda, holds of them in the end. -/
theorem handledFor_keeps {P : List Task → Walk → List Task → Prop}
    (step : ∀ (done : List Task) (walk after : Walk) (task : Task) (rest led : List Task),
      P done walk (task :: rest) → Handles tree walk task after led → P (done ++ [task]) after (led ++ rest))
    (limit : Nat) (done : List Task) (walk : Walk) (agenda : List Task) (h : P done walk agenda) :
    P (done ++ handledFor tree limit walk agenda) (runFor tree limit walk agenda).1
      (runFor tree limit walk agenda).2 := by
  -- on the limit; the tasks handled so far grow with every step and go along
  induction limit generalizing done walk agenda with
  | zero => rwa [handledFor, List.append_nil]
  | succ limit ih =>
    cases agenda with
    | nil => rwa [handledFor, List.append_nil]
    | cons task rest =>
      have hrest := ih _ _ _ (step done walk _ task rest _ h (perform_handles tree walk task))
      rwa [List.append_assoc] at hrest

/-- What every step keeps holds of the walk and what is left of its agenda in the end. -/
theorem runFor_keeps {P : Walk → List Task → Prop}
    (step : ∀ (walk after : Walk) (task : Task) (rest led : List Task),
      P walk (task :: rest) → Handles tree walk task after led → P after (led ++ rest))
    (limit : Nat) (walk : Walk) (agenda : List Task) (h : P walk agenda) :
    P (runFor tree limit walk agenda).1 (runFor tree limit walk agenda).2 :=
  handledFor_keeps (P := fun _ => P) (fun _ => step) limit [] walk agenda h

/-! ## The tables after a step -/

/-- The nestings after one has been opened. -/
theorem getElem?_openNesting (level : Level) (parent : Option Nat) (number : Nat) :
    (walk.openNesting level parent).nestings[number]? =
      if number = walk.nextNesting then some ⟨level, [parent]⟩ else walk.nestings[number]? := by
  simp only [openNesting, Std.TreeMap.getElem?_insert, Std.LawfulEqOrd.compare_eq_iff_eq,
    eq_comm (a := number)]

/-- The nestings after one has got a further parent. -/
theorem getElem?_addParent (added : Nat) (parent : Option Nat) (number : Nat) :
    (walk.addParent added parent).nestings[number]? =
      if number = added then
        (walk.nestings[number]?).map fun nesting =>
          { nesting with parents := nesting.parents ++ [parent] }
      else walk.nestings[number]? := by
  simp only [addParent, Std.TreeMap.getElem?_modify, Std.LawfulEqOrd.compare_eq_iff_eq,
    eq_comm (a := number)]
  split
  · rename_i h
    rw [h]
  · rfl

/-- The levels after a nesting has been opened. -/
theorem opened_openNesting (level other : Level) (parent : Option Nat) :
    (walk.openNesting level parent).opened[other]? =
      if other = level then some walk.nextNesting else walk.opened[other]? := by
  simp only [openNesting, Std.TreeMap.getElem?_insert, Std.LawfulEqOrd.compare_eq_iff_eq,
    eq_comm (a := other)]

/-- The items after one has been entered. -/
theorem mem_entered_see (item other : Item) :
    other ∈ (walk.see tree item).entered ↔ other = item ∨ other ∈ walk.entered := by
  simp only [see, Std.TreeSet.mem_insert, Std.LawfulEqOrd.compare_eq_iff_eq, eq_comm (a := other)]

/-- The finished nestings after one has been finished. -/
theorem mem_finished_finish (number other : Nat) :
    other ∈ (walk.finish number).finished ↔ other = number ∨ other ∈ walk.finished := by
  simp only [finish, Std.TreeSet.mem_insert, Std.LawfulEqOrd.compare_eq_iff_eq,
    eq_comm (a := other)]

/-- A nesting of the table has the parents that it lists. -/
theorem parents_of_getElem? {number : Nat} {nesting : Nesting}
    (found : walk.nestings[number]? = some nesting) : walk.parents number = nesting.parents := by
  rw [parents, found]
  rfl

/-- Only nestings of the table have parents. -/
theorem getElem?_of_mem_parents {number : Nat} {parent : Option Nat}
    (h : parent ∈ walk.parents number) :
    ∃ nesting, walk.nestings[number]? = some nesting ∧ parent ∈ nesting.parents := by
  cases found : walk.nestings[number]? with
  | none => simp [parents, found] at h
  | some nesting => exact ⟨nesting, rfl, parents_of_getElem? found ▸ h⟩

/-- The parents after a nesting has been opened. -/
theorem parents_openNesting (level : Level) (parent : Option Nat) (number : Nat) :
    (walk.openNesting level parent).parents number =
      if number = walk.nextNesting then [parent] else walk.parents number := by
  rw [parents, getElem?_openNesting]
  split
  · rfl
  · rfl

/-- The parents after a nesting has got a further one. -/
theorem parents_addParent (added : Nat) (parent : Option Nat) (number : Nat) :
    (walk.addParent added parent).parents number =
      walk.parents number ++ if number = added ∧ number ∈ walk.nestings then [parent] else [] := by
  rw [parents, parents, getElem?_addParent]
  by_cases hsame : number = added
  · cases hfound : walk.nestings[number]? <;>
      simp [← hsame, hfound, Std.TreeMap.mem_iff_isSome_getElem?]
  · simp [hsame]

/-- A nesting that gets a parent has it. -/
theorem mem_parents_addParent {added : Nat} (present : added ∈ walk.nestings) (parent : Option Nat) :
    parent ∈ (walk.addParent added parent).parents added := by
  rw [parents_addParent, if_pos ⟨rfl, present⟩]
  exact List.mem_append_right _ (List.mem_singleton_self _)

/-- A nesting of a walk in which one has got a further parent was there before. -/
theorem earlier_of_addParent {added number : Nat} {parent : Option Nat} {nesting : Nesting}
    (found : (walk.addParent added parent).nestings[number]? = some nesting) :
    ∃ earlier : Nesting, walk.nestings[number]? = some earlier ∧ nesting.toLevel = earlier.toLevel ∧
      (nesting.parents = earlier.parents ∨
        number = added ∧ nesting.parents = earlier.parents ++ [parent]) := by
  rw [getElem?_addParent] at found
  split at found
  · rename_i hnumber
    obtain ⟨earlier, hearlier, rfl⟩ := Option.map_eq_some_iff.1 found
    exact ⟨earlier, hearlier, rfl, .inr ⟨hnumber, rfl⟩⟩
  · exact ⟨nesting, found, rfl, .inl rfl⟩

/-- Only the given parent is added, and only to the given nesting. -/
theorem mem_parents_of_addParent {added number : Nat} {parent other : Option Nat}
    (h : other ∈ (walk.addParent added parent).parents number) :
    other ∈ walk.parents number ∨ number = added ∧ other = parent := by
  rw [parents_addParent, List.mem_append] at h
  refine h.imp_right fun hadded => ?_
  split at hadded
  · rename_i hnumber
    exact ⟨hnumber.1, List.mem_singleton.1 hadded⟩
  · cases hadded

/-! ## Walks only grow -/

/-- A later walk has at least what an earlier one has in its tables. -/
structure Extends (walk after : Walk) : Prop where
  nestings : ∀ (number : Nat) (nesting : Nesting), walk.nestings[number]? = some nesting →
    ∃ later : Nesting, after.nestings[number]? = some later ∧ later.toLevel = nesting.toLevel ∧
      nesting.parents ⊆ later.parents
  opened : ∀ (level : Level) (number : Nat), walk.opened[level]? = some number →
    after.opened[level]? = some number
  entered : ∀ item ∈ walk.entered, item ∈ after.entered
  finished : ∀ number ∈ walk.finished, number ∈ after.finished
  found : ∀ item ∈ walk.found, item ∈ after.found
  complete : walk.complete = true → after.complete = true

/-- Nothing is lost if nothing changes. -/
theorem Extends.refl (walk : Walk) : walk.Extends walk where
  nestings _ nesting h := ⟨nesting, h, rfl, List.Subset.refl _⟩
  opened _ _ h := h
  entered _ h := h
  finished _ h := h
  found _ h := h
  complete h := h

/-- A step adds to the tables, provided that the next number is a new one. -/
theorem Handles.extends (h : Handles tree walk task after led)
    (fresh : walk.nestings[walk.nextNesting]? = none) : walk.Extends after := by
  cases h with
  | known | tooDeep | shares | goesOn | ended | lost | resumes => exact .refl walk
  | sees new =>
    refine { Extends.refl walk with entered := ?_, found := ?_ }
    · exact fun other h => (mem_entered_see _ other).2 (.inr h)
    · intro other h
      simp only [see]
      split
      · exact Array.mem_push.2 (.inl h)
      · exact h
  | opens within new =>
    refine { Extends.refl walk with nestings := ?_, opened := ?_ }
    · intro number nesting found
      refine ⟨nesting, ?_, rfl, List.Subset.refl _⟩
      rw [getElem?_openNesting, if_neg, found]
      rintro rfl
      rw [fresh] at found
      cases found
    · intro level number found
      rw [opened_openNesting, if_neg, found]
      rintro rfl
      rw [new] at found
      cases found
  | @joins frame parent added =>
    refine { Extends.refl walk with nestings := ?_ }
    intro number nesting found
    rw [getElem?_addParent, found]
    split
    · exact ⟨_, rfl, rfl, List.subset_append_left _ _⟩
    · exact ⟨nesting, rfl, rfl, List.Subset.refl _⟩
  | completes => exact { Extends.refl walk with complete := fun _ => rfl }
  | finishes =>
    refine { Extends.refl walk with finished := ?_ }
    exact fun other h => (mem_finished_finish _ other).2 (.inr h)

/-- What is present stays present. -/
theorem Extends.present (h : walk.Extends after) {nesting : Option Nat}
    (present : Nesting.Present walk.nestings nesting) : Nesting.Present after.nestings nesting := by
  intro number hnumber
  obtain ⟨found, hfound⟩ := Option.isSome_iff_exists.1
    (Std.TreeMap.mem_iff_isSome_getElem?.1 (present number hnumber))
  obtain ⟨later, hlater, _⟩ := h.nestings number found hfound
  rw [Std.TreeMap.mem_iff_isSome_getElem?, hlater]
  rfl

/-- A nesting keeps its depth. -/
theorem Extends.depthIn_eq (h : walk.Extends after) {nesting : Option Nat}
    (present : Nesting.Present walk.nestings nesting) :
    Nesting.depthIn after.nestings nesting = Nesting.depthIn walk.nestings nesting := by
  cases nesting with
  | none => rfl
  | some number =>
    obtain ⟨found, hfound⟩ := Option.isSome_iff_exists.1
      (Std.TreeMap.mem_iff_isSome_getElem?.1 (present number rfl))
    obtain ⟨later, hlater, hlevel, _⟩ := h.nestings number found hfound
    have hdepth : later.depth = found.depth := congrArg Level.depth hlevel
    simp only [Nesting.depthIn, hfound, hlater, Option.map_some, Option.getD_some, hdepth]

/-- The level of a frame on a nesting that is present does not change. -/
theorem Extends.levelOn_eq (h : walk.Extends after) {parent : Option Nat}
    (present : Nesting.Present walk.nestings parent) (tree : Tree) (frame : Frame) :
    after.levelOn tree frame parent = walk.levelOn tree frame parent := by
  have hdepth : ∀ other : Walk, other.depth parent = Nesting.depthIn other.nestings parent := by
    intro other
    cases parent <;> rfl
  rw [levelOn, levelOn, hdepth, hdepth, h.depthIn_eq present]

/-- Parents stay parents. -/
theorem Extends.mem_parents (h : walk.Extends after) {number : Nat} {parent : Option Nat}
    (hmem : parent ∈ walk.parents number) : parent ∈ after.parents number := by
  obtain ⟨nesting, found, hmem⟩ := getElem?_of_mem_parents hmem
  obtain ⟨later, hlater, _, hsubset⟩ := h.nestings number nesting found
  rw [parents_of_getElem? hlater]
  exact hsubset hmem

end Walk

end ChainGrammar
