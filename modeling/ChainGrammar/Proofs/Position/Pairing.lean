import ChainGrammar.Proofs.Position.Exactness
import ChainGrammar.Proofs.Tree.Pairing

/-!
# Walks through corresponding nodes

Two walks that set out from corresponding nodes of two trees do the same, task by task: they meet
corresponding nodes, and they give the same numbers to their nestings, since nestings are numbered as they are
opened.  So the positions that they lead to offer corresponding methods in the same order, in nestings of the
same numbers (`Position.start_paired`, `Position.after_paired`).

The walk is deterministic (`Walk.Handles.unique`), so it is enough that the second walk can handle a task in
the way in which the first one handles the corresponding task (`Walk.Handles.paired`).
-/

set_option autoImplicit false

namespace ChainGrammar

variable {pair : Nat → Nat → Prop} {tree other : Tree}

/-! ## What corresponds -/

/-- Frames at corresponding nodes. -/
structure Frame.Paired (pair : Nat → Nat → Prop) (frame frame' : Frame) : Prop where
  body : pair frame.body frame'.body
  origin : pair frame.origin frame'.origin
  iteration : frame.iteration = frame'.iteration

/-- Corresponding frames at the same depth. -/
structure Level.Paired (pair : Nat → Nat → Prop) (level level' : Level) : Prop where
  frame : level.frame.Paired pair level'.frame
  depth : level.depth = level'.depth

/-- Corresponding levels on top of the same nestings. -/
structure Nesting.Paired (pair : Nat → Nat → Prop) (nesting nesting' : Nesting) : Prop where
  level : nesting.toLevel.Paired pair nesting'.toLevel
  parents : nesting.parents = nesting'.parents

/-- Corresponding nodes in the same nesting. -/
structure Item.Paired (pair : Nat → Nat → Prop) (item item' : Item) : Prop where
  node : pair item.node item'.node
  nesting : item.nesting = item'.nesting

/-- Tasks about corresponding nodes. -/
inductive Task.Paired (pair : Nat → Nat → Prop) : Task → Task → Prop where
  | enter {item item' : Item} (items : item.Paired pair item') : Paired pair (.enter item) (.enter item')
  | descend {frame frame' : Frame} (parent : Option Nat) (frames : frame.Paired pair frame') :
      Paired pair (.descend frame parent) (.descend frame' parent)
  | advance {item item' : Item} (items : item.Paired pair item') :
      Paired pair (.advance item) (.advance item')
  | resume (number : Nat) (parent : Option Nat) : Paired pair (.resume number parent) (.resume number parent)

/-- Tables with corresponding nestings of the same numbers. -/
def Nesting.TablesPaired (pair : Nat → Nat → Prop) (nestings nestings' : Std.TreeMap Nat Nesting) : Prop :=
  ∀ number : Nat, Option.Rel (Nesting.Paired pair) nestings[number]? nestings'[number]?

/-- Walks that have met corresponding nodes and given the same numbers. -/
structure Walk.Paired (pair : Nat → Nat → Prop) (walk walk' : Walk) : Prop where
  found : List.Forall₂ (Item.Paired pair) walk.found.toList walk'.found.toList
  complete : walk.complete = walk'.complete
  nestings : Nesting.TablesPaired pair walk.nestings walk'.nestings
  nextNesting : walk.nextNesting = walk'.nextNesting
  opened : ∀ {level level' : Level}, level.Paired pair level' → walk.opened[level]? = walk'.opened[level']?
  entered : ∀ {item item' : Item}, item.Paired pair item' → (item ∈ walk.entered ↔ item' ∈ walk'.entered)
  finished : ∀ number : Nat, number ∈ walk.finished ↔ number ∈ walk'.finished

/-- Positions that offer corresponding methods in nestings of the same numbers. -/
structure Position.Paired (pair : Nat → Nat → Prop) (position position' : Position) : Prop where
  items : List.Forall₂ (Item.Paired pair) position.items position'.items
  complete : position.complete = position'.complete
  nestings : Nesting.TablesPaired pair position.nestings position'.nestings
  nextNesting : position.nextNesting = position'.nextNesting

namespace Tree

/-- Nodes are the same where those that they correspond to are. -/
theorem Pairing.eq_iff (pairing : tree.Pairing other pair) {id id' one one' : Nat} (h : pair id id')
    (hone : pair one one') : id = one ↔ id' = one' := by
  constructor
  · rintro rfl
    exact pairing.left h hone
  · rintro rfl
    exact pairing.right h hone

/-- The nodes after corresponding nodes correspond. -/
theorem Pairing.next? (pairing : tree.Pairing other pair) {id id' : Nat} (h : pair id id') :
    Option.Rel pair (tree.next? id) (other.next? id') := by
  have hchildren := pairing.children h
  unfold Tree.next?
  generalize tree.children id = children at hchildren ⊢
  generalize other.children id' = children' at hchildren ⊢
  cases hchildren with
  | nil => exact .none
  | cons first _ => exact .some first

/-- What is entered at corresponding nodes corresponds. -/
theorem Pairing.opens? (pairing : tree.Pairing other pair) {id id' : Nat} (h : pair id id') :
    Option.Rel pair (tree.opens? id) (other.opens? id') := by
  unfold Tree.opens?
  rw [← pairing.label h]
  cases tree.label id with
  | rule => exact .some h
  | backEdge => exact pairing.target h
  | root | method => exact .none

end Tree

theorem Item.Paired.eq_iff (pairing : tree.Pairing other pair) {item item' one one' : Item}
    (items : item.Paired pair item') (ones : one.Paired pair one') : item = one ↔ item' = one' := by
  obtain ⟨node, nesting⟩ := item
  obtain ⟨node', nesting'⟩ := item'
  obtain ⟨oneNode, oneNesting⟩ := one
  obtain ⟨oneNode', oneNesting'⟩ := one'
  obtain ⟨hnode, rfl⟩ := items
  obtain ⟨hone, rfl⟩ := ones
  rw [Item.mk.injEq, Item.mk.injEq, pairing.eq_iff hnode hone]

/-- Corresponding items are in the same nestings. -/
theorem Item.nestings_eq {items items' : List Item} (h : List.Forall₂ (Item.Paired pair) items items') :
    items.filterMap Item.nesting = items'.filterMap Item.nesting := by
  induction h with
  | nil => rfl
  | cons first _ ih => rw [List.filterMap_cons, List.filterMap_cons, first.nesting, ih]

/-- Corresponding items have the same names. -/
theorem Item.names_eq (pairing : tree.Pairing other pair) {items items' : List Item}
    (h : List.Forall₂ (Item.Paired pair) items items') :
    (items.map fun item => (tree.label item.node).name) =
      items'.map fun item => (other.label item.node).name := by
  induction h with
  | nil => rfl
  | cons first _ ih => rw [List.map_cons, List.map_cons, pairing.label first.node, ih]

theorem Level.Paired.eq_iff (pairing : tree.Pairing other pair) {level level' one one' : Level}
    (levels : level.Paired pair level') (ones : one.Paired pair one') : level = one ↔ level' = one' := by
  obtain ⟨⟨body, origin, iteration⟩, depth⟩ := level
  obtain ⟨⟨body', origin', iteration'⟩, depth'⟩ := level'
  obtain ⟨⟨oneBody, oneOrigin, oneIteration⟩, oneDepth⟩ := one
  obtain ⟨⟨oneBody', oneOrigin', oneIteration'⟩, oneDepth'⟩ := one'
  obtain ⟨⟨hbody, horigin, rfl⟩, rfl⟩ := levels
  obtain ⟨⟨honeBody, honeOrigin, rfl⟩, rfl⟩ := ones
  rw [Level.mk.injEq, Level.mk.injEq, Frame.mk.injEq, Frame.mk.injEq, pairing.eq_iff hbody honeBody,
    pairing.eq_iff horigin honeOrigin]

/-- Frames that are opened next at corresponding frames. -/
theorem Frame.Paired.following {frame frame' : Frame} (frames : frame.Paired pair frame')
    (repeats : Repeat) : (frame.following repeats).Paired pair (frame'.following repeats) := by
  obtain ⟨hbody, horigin, hiteration⟩ := frames
  cases repeats with
  | unbounded => exact ⟨hbody, horigin, hiteration⟩
  | once | times => exact ⟨hbody, horigin, congrArg (· + 1) hiteration⟩

namespace Walk

variable {walk walk' : Walk}

/-! ## What tasks lead to -/

/-- Lists of tasks that are there under a condition. -/
theorem forall₂_ite {condition : Prop} [Decidable condition] {task task' : Task}
    (tasks : task.Paired pair task') : List.Forall₂ (Task.Paired pair)
      (if condition then [task] else []) (if condition then [task'] else []) := by
  split
  · exact .cons tasks .nil
  · exact .nil

/-- Corresponding frames lead to corresponding alternatives. -/
theorem forall₂_alternatives (pairing : tree.Pairing other pair) {frame frame' : Frame}
    (frames : frame.Paired pair frame') (number : Nat) : List.Forall₂ (Task.Paired pair)
      (alternatives tree frame number) (alternatives other frame' number) := by
  unfold alternatives
  rw [List.forall₂_map_left_iff, List.forall₂_map_right_iff]
  exact (pairing.body frames.body).imp fun _ _ nodes => .enter ⟨nodes, rfl⟩

/-- Corresponding items lead to corresponding tasks. -/
theorem forall₂_behind (pairing : tree.Pairing other pair) {item item' : Item}
    (items : item.Paired pair item') :
    List.Forall₂ (Task.Paired pair) (behind tree item) (behind other item') := by
  have hopens := pairing.opens? items.node
  unfold behind
  rw [← pairing.label items.node]
  refine List.rel_append ?_ (forall₂_ite (.advance items))
  generalize tree.opens? item.node = body at hopens ⊢
  generalize other.opens? item'.node = body' at hopens ⊢
  cases hopens with
  | none => exact .nil
  | some bodies =>
    rw [items.nesting]
    exact .cons (.descend _ ⟨bodies, items.node, rfl⟩) .nil

/-- Leaving corresponding frames leads to corresponding tasks. -/
theorem forall₂_left (pairing : tree.Pairing other pair) {frame frame' : Frame}
    (frames : frame.Paired pair frame') (parent : Option Nat) :
    List.Forall₂ (Task.Paired pair) (left tree frame parent) (left other frame' parent) := by
  unfold left
  rw [← pairing.label frames.origin, ← frames.iteration]
  exact List.rel_append (forall₂_ite (.descend parent (frames.following _)))
    (.cons (.advance ⟨frames.origin, rfl⟩) .nil)

/-! ## What is read from the tables -/

theorem Paired.parents (walks : walk.Paired pair walk') (number : Nat) :
    walk.parents number = walk'.parents number := by
  have hnestings := walks.nestings number
  unfold Walk.parents
  generalize walk.nestings[number]? = nesting at hnestings ⊢
  generalize walk'.nestings[number]? = nesting' at hnestings ⊢
  cases hnestings with
  | none => rfl
  | some nestings => exact nestings.parents

theorem Paired.depth (walks : walk.Paired pair walk') (nesting : Option Nat) :
    walk.depth nesting = walk'.depth nesting := by
  cases nesting with
  | none => rfl
  | some number =>
    have hnestings := walks.nestings number
    unfold Walk.depth
    dsimp only
    generalize walk.nestings[number]? = nesting at hnestings ⊢
    generalize walk'.nestings[number]? = nesting' at hnestings ⊢
    cases hnestings with
    | none => rfl
    | some nestings => exact nestings.level.depth

/-- Corresponding frames are opened at corresponding levels. -/
theorem Paired.levelOn (walks : walk.Paired pair walk') (pairing : tree.Pairing other pair)
    {frame frame' : Frame} (frames : frame.Paired pair frame') (parent : Option Nat) :
    (walk.levelOn tree frame parent).Paired pair (walk'.levelOn other frame' parent) := by
  refine ⟨frames, ?_⟩
  unfold Walk.levelOn
  rw [walks.depth, pairing.label frames.origin]

/-! ## What is written into the tables -/

theorem Paired.see (walks : walk.Paired pair walk') (pairing : tree.Pairing other pair)
    {item item' : Item} (items : item.Paired pair item') :
    (walk.see tree item).Paired pair (walk'.see other item') := by
  refine { walks with found := ?_, entered := ?_ }
  · unfold Walk.see
    rw [← pairing.label items.node]
    dsimp only
    split
    · rw [Array.toList_push, Array.toList_push]
      exact List.rel_append walks.found (.cons items .nil)
    · exact walks.found
  · intro one one' ones
    rw [mem_entered_see, mem_entered_see, walks.entered ones, ones.eq_iff pairing items]

theorem Paired.openNesting (walks : walk.Paired pair walk') (pairing : tree.Pairing other pair)
    {level level' : Level} (levels : level.Paired pair level') (parent : Option Nat) :
    (walk.openNesting level parent).Paired pair (walk'.openNesting level' parent) := by
  refine { walks with nestings := ?_, nextNesting := congrArg (· + 1) walks.nextNesting, opened := ?_ }
  · intro number
    rw [getElem?_openNesting, getElem?_openNesting, ← walks.nextNesting]
    split
    · exact .some ⟨levels, rfl⟩
    · exact walks.nestings number
  · intro one one' ones
    rw [opened_openNesting, opened_openNesting, ← walks.nextNesting, walks.opened ones]
    simp only [ones.eq_iff pairing levels]

theorem Paired.addParent (walks : walk.Paired pair walk') (added : Nat) (parent : Option Nat) :
    (walk.addParent added parent).Paired pair (walk'.addParent added parent) := by
  refine { walks with nestings := fun number => ?_ }
  have hnestings := walks.nestings number
  rw [getElem?_addParent, getElem?_addParent]
  generalize walk.nestings[number]? = nesting at hnestings ⊢
  generalize walk'.nestings[number]? = nesting' at hnestings ⊢
  split
  · cases hnestings with
    | none => exact .none
    | some nestings => exact .some ⟨nestings.level, congrArg (· ++ [parent]) nestings.parents⟩
  · exact hnestings

theorem Paired.finish (walks : walk.Paired pair walk') (number : Nat) :
    (walk.finish number).Paired pair (walk'.finish number) := by
  refine { walks with finished := fun one => ?_ }
  rw [mem_finished_finish, mem_finished_finish, walks.finished]

/-! ## Two walks -/

/-- A task is handled in the same way as one that corresponds to it. -/
theorem Handles.paired (pairing : tree.Pairing other pair) (limit : tree.maxDepth = other.maxDepth)
    (walks : walk.Paired pair walk') {task task' : Task} (tasks : task.Paired pair task') {after : Walk}
    {led : List Task} (h : Handles tree walk task after led) :
    ∃ after' led', Handles other walk' task' after' led' ∧ after.Paired pair after' ∧
      List.Forall₂ (Task.Paired pair) led led' := by
  cases tasks with
  | enter items =>
    cases h with
    | known entered => exact ⟨_, _, .known ((walks.entered items).1 entered), walks, .nil⟩
    | sees fresh =>
      exact ⟨_, _, .sees fun entered => fresh ((walks.entered items).2 entered),
        walks.see pairing items, forall₂_behind pairing items⟩
  | descend parent frames =>
    -- the levels correspond, so they are both open already or both new, and both too deep or not
    have levels := walks.levelOn pairing frames parent
    cases h with
    | tooDeep deep =>
      rw [levels.depth, limit] at deep
      exact ⟨_, _, .tooDeep deep, walks, .nil⟩
    | opens within fresh =>
      rw [levels.depth, limit] at within
      rw [walks.opened levels] at fresh
      rw [walks.nextNesting]
      exact ⟨_, _, .opens within fresh, walks.openNesting pairing levels parent,
        forall₂_alternatives pairing frames _⟩
    | shares within isOpen known =>
      rw [levels.depth, limit] at within
      rw [walks.opened levels] at isOpen
      rw [walks.parents] at known
      exact ⟨_, _, .shares within isOpen known, walks, forall₂_alternatives pairing frames _⟩
    | joins within isOpen fresh =>
      rw [levels.depth, limit] at within
      rw [walks.opened levels] at isOpen
      rw [walks.parents] at fresh
      refine ⟨_, _, .joins within isOpen fresh, walks.addParent _ parent, ?_⟩
      simp only [walks.finished]
      exact List.rel_append (forall₂_ite (.resume _ parent)) (forall₂_alternatives pairing frames _)
  | @advance item item' items =>
    obtain ⟨node, nesting⟩ := item
    obtain ⟨node', nesting'⟩ := item'
    obtain ⟨nodes, rfl⟩ := items
    have hnext := pairing.next? nodes
    cases h with
    | goesOn found =>
      rw [found] at hnext
      obtain ⟨next', found', nexts⟩ := exists_of_rel_some hnext
      exact ⟨_, _, .goesOn found', walks, .cons (.enter ⟨nexts, rfl⟩) .nil⟩
    | completes last =>
      rw [last] at hnext
      exact ⟨_, _, .completes (eq_none_of_rel_none hnext), { walks with complete := rfl }, .nil⟩
    | ended last done =>
      rw [last] at hnext
      exact ⟨_, _, .ended (eq_none_of_rel_none hnext) ((walks.finished _).1 done), walks, .nil⟩
    | @finishes _ number last fresh =>
      rw [last] at hnext
      refine ⟨_, _, .finishes (eq_none_of_rel_none hnext) fun done =>
        fresh ((walks.finished _).2 done), walks.finish number, ?_⟩
      rw [walks.parents, List.forall₂_map_left_iff, List.forall₂_map_right_iff, List.forall₂_same]
      exact fun parent _ => .resume number parent
  | resume number parent =>
    have hnestings := walks.nestings number
    cases h with
    | lost missing =>
      rw [missing] at hnestings
      exact ⟨_, _, .lost (eq_none_of_rel_none hnestings), walks, .nil⟩
    | resumes found =>
      rw [found] at hnestings
      obtain ⟨nesting', found', nestings⟩ := exists_of_rel_some hnestings
      exact ⟨_, _, .resumes found', walks, forall₂_left pairing nestings.level.frame parent⟩

/-- Walks through corresponding nodes are in lockstep. -/
theorem lockstep_paired (pairing : tree.Pairing other pair) (limit : tree.maxDepth = other.maxDepth) :
    Lockstep tree other fun walk agenda walk' agenda' =>
      walk.Paired pair walk' ∧ List.Forall₂ (Task.Paired pair) agenda agenda' where
  step := by
    rintro walk walk' task rest _ ⟨walks, agendas⟩
    cases agendas with
    | @cons _ task' _ rest' tasks rests =>
      obtain ⟨after', led', handles, afters, leds⟩ :=
        (perform_handles tree walk task).paired pairing limit walks tasks
      -- the second walk has no choice but to handle its task in the way found here
      obtain ⟨rfl, rfl⟩ := handles.unique (perform_handles other walk' task')
      exact ⟨task', rest', rfl, afters, List.rel_append leds rests⟩
  stop := fun ⟨_, agendas⟩ => List.forall₂_nil_left_iff.1 agendas

/-- Walks that have met corresponding nodes have led to corresponding positions. -/
theorem Paired.position (walks : walk.Paired pair walk') : walk.position.Paired pair walk'.position :=
  ⟨walks.found, walks.complete, walks.nestings, walks.nextNesting⟩

/-- Walks that set out alike through corresponding nodes end alike. -/
theorem SetsOut.run_paired (closed : tree.Closed) (closed' : other.Closed)
    (pairing : tree.Pairing other pair) (limit : tree.maxDepth = other.maxDepth)
    {agenda agenda' : List Task} (sets : SetsOut tree walk agenda) (sets' : SetsOut other walk' agenda')
    (walks : walk.Paired pair walk') (agendas : List.Forall₂ (Task.Paired pair) agenda agenda') :
    (walk.run tree agenda).position.Paired pair (walk'.run other agenda').position := by
  obtain ⟨runs, _⟩ := (lockstep_paired pairing limit).run (sets.ends closed) (sets'.ends closed')
    ⟨walks, agendas⟩
  exact runs.position

end Walk

/-! ## Positions -/

namespace Nesting

variable {left left' kept kept' : Std.TreeMap Nat Nesting}

theorem tablesPaired_empty : TablesPaired pair ∅ ∅ := by
  intro number
  rw [Std.TreeMap.getElem?_emptyc]
  exact .none

theorem TablesPaired.erase (tables : TablesPaired pair left left') (number : Nat) :
    TablesPaired pair (left.erase number) (left'.erase number) := by
  intro one
  rw [Std.TreeMap.getElem?_erase, Std.TreeMap.getElem?_erase]
  split
  · exact .none
  · exact tables one

theorem TablesPaired.insert (tables : TablesPaired pair kept kept') (number : Nat)
    {nesting nesting' : Nesting} (nestings : nesting.Paired pair nesting') :
    TablesPaired pair (kept.insert number nesting) (kept'.insert number nesting') := by
  intro one
  rw [Std.TreeMap.getElem?_insert, Std.TreeMap.getElem?_insert]
  split
  · exact .some nestings
  · exact tables one

/-- The nestings of the same numbers are gathered. -/
theorem TablesPaired.gather (left left' kept kept' : Std.TreeMap Nat Nesting)
    (lefts : TablesPaired pair left left') (kepts : TablesPaired pair kept kept') (todo : List Nat) :
    TablesPaired pair (Nesting.gather left kept todo) (Nesting.gather left' kept' todo) := by
  match todo with
  | [] =>
    rw [Nesting.gather, Nesting.gather]
    exact kepts
  | number :: rest =>
    have hnestings := lefts number
    cases found : left[number]? with
    | none =>
      rw [found] at hnestings
      rw [gather_none found, gather_none (eq_none_of_rel_none hnestings)]
      exact TablesPaired.gather left left' kept kept' lefts kepts rest
    | some nesting =>
      rw [found] at hnestings
      obtain ⟨nesting', found', nestings⟩ := exists_of_rel_some hnestings
      rw [gather_some found, gather_some found', ← nestings.parents]
      have fewer := size_erase_lt found
      exact TablesPaired.gather _ _ _ _ (lefts.erase number) (kepts.insert number nestings) _
termination_by (left.size, todo.length)

end Nesting

theorem Walk.paired_empty (pair : Nat → Nat → Prop) : Walk.Paired pair {} {} where
  found := .nil
  complete := rfl
  nestings := Nesting.tablesPaired_empty
  nextNesting := rfl
  opened _ := rfl
  entered _ := by simp
  finished _ := Iff.rfl

namespace Position

variable {position position' : Position} {items items' : List Item}

/-- At the beginning of corresponding entry rules. -/
theorem start_paired (closed : tree.Closed) (closed' : other.Closed) (pairing : tree.Pairing other pair)
    (limit : tree.maxDepth = other.maxDepth) {entry entry' : Nat} (hentry : entry < tree.size)
    (hentry' : entry' < other.size) (entries : pair entry entry') :
    (start tree entry).Paired pair (start other entry') := by
  exact (Walk.setsOut_start hentry).run_paired closed closed' pairing limit
    (Walk.setsOut_start hentry') (Walk.paired_empty pair) (.cons (.enter ⟨entries, rfl⟩) .nil)

/-- After calls that corresponding items offered. -/
theorem after_paired (closed : tree.Closed) (closed' : other.Closed) (pairing : tree.Pairing other pair)
    (limit : tree.maxDepth = other.maxDepth) (positions : position.Paired pair position')
    (table : Nesting.Table tree position.nestings position.nextNesting)
    (table' : Nesting.Table other position'.nestings position'.nextNesting)
    (fits : ∀ item ∈ items, item.Fits tree position.nestings)
    (fits' : ∀ item ∈ items', item.Fits other position'.nestings)
    (taken : List.Forall₂ (Item.Paired pair) items items') :
    (position.after tree items).Paired pair (position'.after other items') := by
  refine (Walk.setsOut_after table fits).run_paired closed closed' pairing limit
    (Walk.setsOut_after table' fits') ?_ ?_
  · have carried : Nesting.TablesPaired pair (position.nestingsOf items) (position'.nestingsOf items') := by
      unfold nestingsOf
      rw [Item.nestings_eq taken]
      exact Nesting.TablesPaired.gather _ _ _ _ positions.nestings Nesting.tablesPaired_empty _
    exact { Walk.paired_empty pair with nestings := carried, nextNesting := positions.nextNesting }
  · rw [List.forall₂_map_left_iff, List.forall₂_map_right_iff]
    exact taken.imp fun _ _ => .advance

/-- Corresponding positions offer methods of the same names in the same order. -/
theorem Paired.methods (positions : position.Paired pair position') (pairing : tree.Pairing other pair) :
    position.methods tree = position'.methods other := by
  rw [Position.methods, Position.methods, Item.names_eq pairing positions.items]

end Position

end ChainGrammar
