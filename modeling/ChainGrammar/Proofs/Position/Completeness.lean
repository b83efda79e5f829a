import ChainGrammar.Proofs.Position.Machine

/-!
# A walk finds everything

Whatever silent moves lead to from where a walk sets out, the walk finds (`Walk.Shown.reaches`).

At every moment each move that can be made from what is in the tables has either been made or is still
to be made by a task of the agenda (`Walk.Covered`).  That holds of a place in a nesting, and so at once
of all the stacks that the nesting stands for, now or later.  When the agenda is empty, the tables are
closed under all moves.
-/

set_option autoImplicit false

namespace ChainGrammar

open Plain (State Silent Reaches)

namespace Walk

/-- The item has been entered, or will be. -/
def Comes (walk : Walk) (agenda : List Task) (item : Item) : Prop :=
  item ∈ walk.entered ∨ .enter item ∈ agenda

/-- What is behind the item has been entered, completed or finished, or will be. -/
def GoesOn (tree : Tree) (walk : Walk) (agenda : List Task) (item : Item) : Prop :=
  .advance item ∈ agenda ∨
    (∃ next, tree.next? item.node = some next ∧ walk.Comes agenda ⟨next, item.nesting⟩) ∨
      tree.next? item.node = none ∧
        (item.nesting = none ∧ walk.complete = true ∨
          ∃ number ∈ walk.finished, item.nesting = some number)

/-- The frame is open on top of the nesting and its alternatives are entered, or will be, unless it is
too deep. -/
def IsOpen (tree : Tree) (walk : Walk) (agenda : List Task) (frame : Frame) (parent : Option Nat) :
    Prop :=
  .descend frame parent ∈ agenda ∨
    tree.maxDepth < (walk.levelOn tree frame parent).depth ∨
      ∃ number, walk.opened[walk.levelOn tree frame parent]? = some number ∧
        parent ∈ walk.parents number ∧
          ∀ alternative ∈ tree.body frame.body, walk.Comes agenda ⟨alternative, some number⟩

/-- The frame has been left for the nesting, or will be. -/
def IsLeft (tree : Tree) (walk : Walk) (agenda : List Task) (number : Nat) (frame : Frame)
    (parent : Option Nat) : Prop :=
  .resume number parent ∈ agenda ∨
    walk.GoesOn tree agenda ⟨frame.origin, parent⟩ ∧
      ((tree.label frame.origin).repeats.allowsAnother frame.iteration = true →
        walk.IsOpen tree agenda (frame.following (tree.label frame.origin).repeats) parent)

/-- Every move from what is in the tables has been made, or will be. -/
structure Covered (tree : Tree) (walk : Walk) (agenda : List Task) : Prop where
  opens : ∀ item ∈ walk.entered, ∀ body, tree.opens? item.node = some body →
    walk.IsOpen tree agenda ⟨body, item.node, 1⟩ item.nesting
  skips : ∀ item ∈ walk.entered, (tree.label item.node).optional = true → walk.GoesOn tree agenda item
  offers : ∀ item ∈ walk.entered, (tree.label item.node).isMethod = true → item ∈ walk.found
  leaves : ∀ number ∈ walk.finished, ∀ nesting : Nesting, walk.nestings[number]? = some nesting →
    ∀ parent ∈ nesting.parents, walk.IsLeft tree agenda number nesting.frame parent

variable {tree : Tree} {walk after : Walk} {task : Task} {agenda rest led : List Task}

/-! ## What is to be done is done -/

/-- A task that is not the one handled stays on the agenda. -/
theorem mem_rest_of_ne {pending : Task} (h : pending ∈ task :: rest) (hne : pending ≠ task)
    (led : List Task) : pending ∈ led ++ rest :=
  List.mem_append_right _ ((List.mem_cons.1 h).resolve_left hne)

/-- An item that comes, comes after a step. -/
theorem Comes.step {item : Item} (comes : walk.Comes (task :: rest) item)
    (extends_ : walk.Extends after) (h : Handles tree walk task after led) :
    after.Comes (led ++ rest) item := by
  rcases comes with entered | pending
  · exact .inl (extends_.entered item entered)
  · by_cases htask : Task.enter item = task
    · subst htask
      cases h with
      | known entered => exact .inl entered
      | sees fresh => exact .inl ((mem_entered_see item item).2 (.inl rfl))
    · exact .inr (mem_rest_of_ne pending htask led)

/-- An item behind which a walk goes on is one behind which it goes on after a step. -/
theorem GoesOn.step {item : Item} (goes : walk.GoesOn tree (task :: rest) item)
    (extends_ : walk.Extends after) (h : Handles tree walk task after led) :
    after.GoesOn tree (led ++ rest) item := by
  rcases goes with pending | ⟨next, found, comes⟩ | ⟨last, ⟨top, complete⟩ | ⟨number, done, hnumber⟩⟩
  · by_cases htask : Task.advance item = task
    · subst htask
      cases h with
      | @goesOn _ next found => exact .inr (.inl ⟨next, found, .inr (by simp)⟩)
      | completes last => exact .inr (.inr ⟨last, .inl ⟨rfl, rfl⟩⟩)
      | @ended _ number last done => exact .inr (.inr ⟨last, .inr ⟨number, done, rfl⟩⟩)
      | @finishes _ number last fresh =>
        exact .inr (.inr ⟨last, .inr ⟨number, (mem_finished_finish number number).2 (.inl rfl), rfl⟩⟩)
    · exact .inl (mem_rest_of_ne pending htask led)
  · exact .inr (.inl ⟨next, found, comes.step extends_ h⟩)
  · exact .inr (.inr ⟨last, .inl ⟨top, extends_.complete complete⟩⟩)
  · exact .inr (.inr ⟨last, .inr ⟨number, extends_.finished number done, hnumber⟩⟩)

/-- The alternatives of a frame come when its tasks are on the agenda. -/
theorem comes_alternatives (frame : Frame) (number : Nat)
    (hled : alternatives tree frame number ⊆ led) :
    ∀ alternative ∈ tree.body frame.body, walk.Comes (led ++ rest) ⟨alternative, some number⟩ :=
  fun alternative halternative => .inr (List.mem_append_left _
    (hled (List.mem_map.2 ⟨alternative, halternative, rfl⟩)))

/-- A frame that is open on a nesting is open there after a step. -/
theorem IsOpen.step {frame : Frame} {parent : Option Nat}
    (isOpen : walk.IsOpen tree (task :: rest) frame parent) (tidy : walk.Tidy tree (task :: rest))
    (h : Handles tree walk task after led) (present : Nesting.Present walk.nestings parent) :
    after.IsOpen tree (led ++ rest) frame parent := by
  have extends_ := h.extends tidy.fresh
  have hlevel := extends_.levelOn_eq present tree frame
  rcases isOpen with pending | deep | ⟨number, found, hparent, comes⟩
  · by_cases htask : Task.descend frame parent = task
    · subst htask
      cases h with
      | tooDeep deep => exact .inr (.inl deep)
      | opens within fresh =>
        refine .inr (.inr ⟨walk.nextNesting, ?_, ?_, comes_alternatives frame _ (List.Subset.refl _)⟩)
        · rw [hlevel, opened_openNesting, if_pos rfl]
        · rw [parents_openNesting, if_pos rfl]
          exact List.mem_singleton_self _
      | shares within isOpen known =>
        exact .inr (.inr ⟨_, isOpen, known, comes_alternatives frame _ (List.Subset.refl _)⟩)
      | @joins _ _ number within isOpen fresh =>
        obtain ⟨_, nesting, found, _⟩ := tidy.opened _ number isOpen
        refine .inr (.inr ⟨number, ?_, mem_parents_addParent (mem_of_getElem? found) parent,
          comes_alternatives frame _ (List.subset_append_right _ _)⟩)
        rw [hlevel]
        exact isOpen
    · exact .inl (mem_rest_of_ne pending htask led)
  · refine .inr (.inl ?_)
    rw [hlevel]
    exact deep
  · refine .inr (.inr ⟨number, ?_, extends_.mem_parents hparent, fun alternative ha =>
      (comes alternative ha).step extends_ h⟩)
    rw [hlevel]
    exact extends_.opened _ number found

/-- A nesting that is left for a parent is left for it after a step. -/
theorem IsLeft.step {number : Nat} {frame : Frame} {parent : Option Nat}
    (isLeft : walk.IsLeft tree (task :: rest) number frame parent)
    (tidy : walk.Tidy tree (task :: rest)) (h : Handles tree walk task after led)
    {nesting : Nesting} (found : walk.nestings[number]? = some nesting)
    (hframe : nesting.frame = frame) (hparent : parent ∈ nesting.parents) :
    after.IsLeft tree (led ++ rest) number frame parent := by
  have extends_ := h.extends tidy.fresh
  have present := tidy.table.present number nesting found parent hparent
  subst hframe
  rcases isLeft with pending | ⟨goes, again⟩
  · by_cases htask : Task.resume number parent = task
    · subst htask
      cases h with
      | lost missing =>
        rw [found] at missing
        cases missing
      | @resumes _ _ other hother =>
        obtain rfl := Option.some.inj (found.symm.trans hother)
        refine .inr ⟨.inl (by simp [left]), fun allows => .inl ?_⟩
        exact List.mem_append_left _ (List.mem_append_left _ (by rw [if_pos allows]; simp))
    · exact .inl (mem_rest_of_ne pending htask led)
  · exact .inr ⟨goes.step extends_ h, fun allows => (again allows).step tidy h present⟩

/-! ## The invariant -/

/-- The moves from an item that has just been entered are made by the tasks that it leads to. -/
theorem covered_see (tree : Tree) (walk : Walk) (rest : List Task) (item : Item) :
    (∀ body, tree.opens? item.node = some body →
      (walk.see tree item).IsOpen tree (behind tree item ++ rest) ⟨body, item.node, 1⟩ item.nesting) ∧
    ((tree.label item.node).optional = true →
      (walk.see tree item).GoesOn tree (behind tree item ++ rest) item) ∧
    ((tree.label item.node).isMethod = true → item ∈ (walk.see tree item).found) := by
  refine ⟨fun body opens => .inl ?_, fun omissible => .inl ?_, fun method => ?_⟩
  · exact List.mem_append_left _ (List.mem_append_left _ (by simp [opens]))
  · exact List.mem_append_left _ (List.mem_append_right _ (by simp [omissible]))
  · simp [see, method]

/-- A parent of a finished nesting was its parent before, or the walk has just been led to leave the
nesting for it. -/
theorem Handles.resume_or (h : Handles tree walk task after led)
    (tidy : walk.Tidy tree (task :: rest)) {number : Nat} (done : number ∈ after.finished)
    {later : Nesting} (found : after.nestings[number]? = some later) {parent : Option Nat}
    (hparent : parent ∈ later.parents) :
    .resume number parent ∈ led ∨
      number ∈ walk.finished ∧ ∃ nesting : Nesting, walk.nestings[number]? = some nesting ∧
        nesting.frame = later.frame ∧ parent ∈ nesting.parents := by
  cases h with
  | known | sees | tooDeep | shares | goesOn | completes | ended | lost | resumes =>
    exact .inr ⟨done, later, found, rfl, hparent⟩
  | opens =>
    rw [getElem?_openNesting, if_neg (tidy.ne_nextNesting (tidy.finished number done))] at found
    exact .inr ⟨done, later, found, rfl, hparent⟩
  | @joins frame joined added within isOpen fresh =>
    obtain ⟨nesting, hnesting, hlevel, hsame | ⟨rfl, hmore⟩⟩ := earlier_of_addParent found
    · exact .inr ⟨done, nesting, hnesting, congrArg Level.frame hlevel.symm, hsame ▸ hparent⟩
    · rw [hmore, List.mem_append, List.mem_singleton] at hparent
      rcases hparent with hparent | rfl
      · exact .inr ⟨done, nesting, hnesting, congrArg Level.frame hlevel.symm, hparent⟩
      · exact .inl (List.mem_append_left _ (by rw [if_pos (show _ ∈ walk.finished from done)]; simp))
  | @finishes node finished last fresh =>
    rcases (mem_finished_finish finished number).1 done with rfl | done
    · have hfound : walk.nestings[number]? = some later := found
      have hparents : walk.parents number = later.parents := by
        rw [parents, hfound]
        rfl
      exact .inl (List.mem_map.2 ⟨parent, hparents ▸ hparent, rfl⟩)
    · exact .inr ⟨done, later, found, rfl, hparent⟩

/-- Handling a task leaves every move made or to be made. -/
theorem Covered.step (tidy : walk.Tidy tree (task :: rest)) (covered : walk.Covered tree (task :: rest))
    (h : Handles tree walk task after led) : after.Covered tree (led ++ rest) := by
  have extends_ := h.extends tidy.fresh
  have hopens : ∀ item ∈ walk.entered, ∀ body, tree.opens? item.node = some body →
      after.IsOpen tree (led ++ rest) ⟨body, item.node, 1⟩ item.nesting := fun item hitem body opens =>
    (covered.opens item hitem body opens).step tidy h (tidy.entered item hitem).present
  have hskips : ∀ item ∈ walk.entered, (tree.label item.node).optional = true →
      after.GoesOn tree (led ++ rest) item := fun item hitem omissible =>
    (covered.skips item hitem omissible).step extends_ h
  have hoffers : ∀ item ∈ walk.entered, (tree.label item.node).isMethod = true →
      item ∈ after.found := fun item hitem method =>
    extends_.found item (covered.offers item hitem method)
  have hleaves : ∀ number ∈ after.finished, ∀ later : Nesting,
      after.nestings[number]? = some later → ∀ parent ∈ later.parents,
        after.IsLeft tree (led ++ rest) number later.frame parent := by
    intro number done later found parent hparent
    rcases h.resume_or tidy done found hparent with hled | ⟨done, nesting, hnesting, hframe, hparent⟩
    · exact .inl (List.mem_append_left _ hled)
    · exact (hframe ▸ covered.leaves number done nesting hnesting parent hparent).step tidy h hnesting
        hframe hparent
  cases h with
  | @sees item fresh =>
    obtain ⟨newOpens, newSkips, newOffers⟩ := covered_see tree walk rest item
    refine ⟨fun other hother => ?_, fun other hother => ?_, fun other hother => ?_, hleaves⟩
    · rcases (mem_entered_see item other).1 hother with rfl | hother
      · exact newOpens
      · exact hopens other hother
    · rcases (mem_entered_see item other).1 hother with rfl | hother
      · exact newSkips
      · exact hskips other hother
    · rcases (mem_entered_see item other).1 hother with rfl | hother
      · exact newOffers
      · exact hoffers other hother
  | _ => exact ⟨hopens, hskips, hoffers, hleaves⟩

/-! ## The tables at the end -/

/-- The walk has been where the machine is. -/
def Shown (tree : Tree) (walk : Walk) : State → Prop
  | .before node stack =>
    ∃ nesting, walk.position.Unfolds nesting stack ∧ walk.Comes [] ⟨node, nesting⟩
  | .behind node stack =>
    ∃ nesting, walk.position.Unfolds nesting stack ∧ walk.GoesOn tree [] ⟨node, nesting⟩
  | .complete => walk.complete = true

/-- On an empty agenda nothing is left to do. -/
theorem IsOpen.unfolds {frame : Frame} {parent : Option Nat} {stack : List Frame}
    (isOpen : walk.IsOpen tree [] frame parent) (tidy : walk.Tidy tree [])
    (unfolds : walk.position.Unfolds parent stack)
    (within : Frame.depthOf tree (frame :: stack) ≤ tree.maxDepth) {alternative : Nat}
    (member : alternative ∈ tree.body frame.body) :
    walk.Shown tree (.before alternative (frame :: stack)) := by
  rcases isOpen with pending | deep | ⟨number, found, hparent, comes⟩
  · cases pending
  · rw [levelOn, depth_eq_depthIn] at deep
    rw [Frame.depthOf_cons, unfolds.depthOf_eq tidy.table] at within
    exact absurd deep (Nat.not_lt.2 within)
  · obtain ⟨nesting, hnesting, hmem⟩ := getElem?_of_mem_parents hparent
    obtain ⟨_, other, hother, hlevel⟩ := tidy.opened _ number found
    obtain rfl := Option.some.inj (hnesting.symm.trans hother)
    have hframe : nesting.frame = frame := congrArg Level.frame hlevel
    exact ⟨some number, hframe ▸ .nested hnesting hmem unfolds, comes alternative member⟩

/-- Behind the last node of a definition the walk has left the frame for what is below it. -/
theorem Shown.of_last (covered : walk.Covered tree []) {node : Nat} {frame : Frame}
    {stack : List Frame} (shown : walk.Shown tree (.behind node (frame :: stack)))
    (last : tree.next? node = none) :
    ∃ parent, walk.position.Unfolds parent stack ∧ walk.GoesOn tree [] ⟨frame.origin, parent⟩ ∧
      ((tree.label frame.origin).repeats.allowsAnother frame.iteration = true →
        walk.IsOpen tree [] (frame.following (tree.label frame.origin).repeats) parent) := by
  -- of the four ways of going on, the stack leaves the one for a finished nesting only
  obtain ⟨nesting, unfolds, pending | ⟨next, found, _⟩ | ⟨_, ⟨top, _⟩ | ⟨number, done, hnumber⟩⟩⟩ :=
    shown
  · cases pending
  · rw [last] at found
    cases found
  · obtain rfl : nesting = none := top
    cases unfolds
  · obtain rfl : nesting = some number := hnumber
    obtain ⟨nesting, hnesting, parent, hparent, below, hbelow, hstack⟩ :=
      Position.unfolds_some_iff.1 unfolds
    obtain ⟨rfl, rfl⟩ := List.cons.inj hstack
    rcases covered.leaves number done nesting hnesting parent hparent with pending | ⟨goes, again⟩
    · cases pending
    · exact ⟨parent, hbelow, goes, again⟩

/-- Silent moves lead to nowhere else than where the walk has been. -/
theorem Shown.step (tidy : walk.Tidy tree []) (covered : walk.Covered tree [])
    {before behind : State} (shown : walk.Shown tree before) (move : Silent tree before behind) :
    walk.Shown tree behind := by
  cases move with
  | descend opens within member =>
    obtain ⟨nesting, unfolds, entered | pending⟩ := shown
    · exact (covered.opens _ entered _ (Tree.opens?_eq_some_iff.2 opens)).unfolds tidy unfolds within
        member
    · cases pending
  | skip omissible =>
    obtain ⟨nesting, unfolds, entered | pending⟩ := shown
    · exact ⟨nesting, unfolds, covered.skips _ entered omissible⟩
    · cases pending
  | next found =>
    obtain ⟨nesting, unfolds, pending | ⟨next, hnext, comes⟩ | ⟨last, _⟩⟩ := shown
    · cases pending
    · obtain rfl := Option.some.inj (found.symm.trans hnext)
      exact ⟨nesting, unfolds, comes⟩
    · rw [found] at last
      cases last
  | @again node alternative frame stack last allows within member =>
    obtain ⟨parent, unfolds, _, again⟩ := shown.of_last covered last
    obtain ⟨horigin, hbody⟩ := frame.following_same (tree.label frame.origin).repeats
    refine (again allows).unfolds tidy unfolds ?_ (hbody ▸ member)
    rw [Frame.depthOf_cons, horigin, ← Frame.depthOf_cons]
    exact within
  | leave last =>
    obtain ⟨parent, unfolds, goes, _⟩ := shown.of_last covered last
    exact ⟨parent, unfolds, goes⟩
  | finish last =>
    obtain ⟨nesting, unfolds, pending | ⟨next, hnext, _⟩ | ⟨_, ⟨_, complete⟩ | ⟨number, _, hnumber⟩⟩⟩ :=
      shown
    · cases pending
    · rw [last] at hnext
      cases hnext
    · exact complete
    · obtain rfl : nesting = some number := hnumber
      cases unfolds

/-- Where silent moves lead to, the walk has been. -/
theorem Shown.reaches (tidy : walk.Tidy tree []) (covered : walk.Covered tree [])
    {before behind : State} (shown : walk.Shown tree before) (moves : Reaches tree before behind) :
    walk.Shown tree behind := by
  induction moves with
  | refl => exact shown
  | tail _ move ih => exact ih.step tidy covered move

end Walk

end ChainGrammar
