import ChainGrammar.Chain.Basic
import ChainGrammar.Proofs.Position.Carried
import ChainGrammar.Proofs.Position.Completeness
import ChainGrammar.Proofs.Position.Soundness
import ChainGrammar.Proofs.Position.Termination
import ChainGrammar.Proofs.Tree.Compiled

/-!
# Sharing is exact

A position offers exactly the methods, in exactly the stacks, that the plain machine offers after the
same calls, and it is complete exactly when the plain machine is (`Position.Matches`).  This holds at
the beginning of an entry rule (`Position.matches_start`) and is kept by every call
(`Position.Matches.after`), so it holds along every chain (`Chain.position_exact`).

Both are instances of one statement about walks: a walk finds exactly what silent moves lead to from
where it sets out (`Walk.run_exact`).
-/

set_option autoImplicit false

namespace ChainGrammar

open Plain (State Silent Reaches Accepts)

namespace Walk

variable {tree : Tree} {first : Walk} {agenda : List Task}

/-- The states that a walk sets out from. -/
def Begins (first : Walk) (agenda : List Task) : State → Prop
  | .before node stack =>
    ∃ nesting, first.position.Unfolds nesting stack ∧ .enter ⟨node, nesting⟩ ∈ agenda
  | .behind node stack =>
    ∃ nesting, first.position.Unfolds nesting stack ∧ .advance ⟨node, nesting⟩ ∈ agenda
  | .complete => False

/-- The states that silent moves lead to from where a walk sets out. -/
def Ground (tree : Tree) (first : Walk) (agenda : List Task) (state : State) : Prop :=
  ∃ start, first.Begins agenda start ∧ Reaches tree start state

/-- A walk that has only nestings, from a table, and an agenda of items in them. -/
structure SetsOut (tree : Tree) (first : Walk) (agenda : List Task) : Prop where
  table : Nesting.Table tree first.nestings first.nextNesting
  blank : first = { nestings := first.nestings, nextNesting := first.nextNesting }
  items : ∀ task ∈ agenda, ∃ item : Item, item.Fits tree first.nestings ∧
    (task = .enter item ∨ task = .advance item)

/-- A walk sets out before an entry rule. -/
theorem setsOut_start {entry : Nat} (hentry : entry < tree.size) :
    SetsOut tree {} [.enter ⟨entry, none⟩] := by
  refine ⟨Nesting.table_empty tree, rfl, fun task htask => ?_⟩
  obtain rfl := List.mem_singleton.1 htask
  exact ⟨⟨entry, none⟩, ⟨hentry, fun number h => by cases h⟩, .inl rfl⟩

/-- A walk sets out behind items of a position. -/
theorem setsOut_after {position : Position} {items : List Item}
    (table : Nesting.Table tree position.nestings position.nextNesting)
    (fits : ∀ item ∈ items, item.Fits tree position.nestings) :
    SetsOut tree { nestings := position.nestingsOf items, nextNesting := position.nextNesting }
      (items.map Task.advance) := by
  refine ⟨Position.table_nestingsOf table items, rfl, fun task htask => ?_⟩
  obtain ⟨item, hitem, rfl⟩ := List.mem_map.1 htask
  refine ⟨item, ⟨(fits item hitem).node, fun number hnumber => ?_⟩, .inr rfl⟩
  exact (position.gathered_nestingsOf items).wanted number ⟨item, hitem, hnumber⟩
    ((fits item hitem).present number hnumber)

/-- Nothing is in the tables but nestings. -/
theorem SetsOut.tables (sets : SetsOut tree first agenda) :
    first.found = #[] ∧ first.complete = false ∧ first.opened = ∅ ∧ first.entered = ∅ ∧
      first.finished = ∅ := by
  rw [sets.blank]
  exact ⟨rfl, rfl, rfl, rfl, rfl⟩

/-- A walk that sets out is tidy. -/
theorem SetsOut.tidy (sets : SetsOut tree first agenda) : first.Tidy tree agenda := by
  obtain ⟨hfound, _, hopened, hentered, hfinished⟩ := sets.tables
  refine ⟨sets.table, fun level number found => ?_, fun item hitem => ?_, fun number hnumber => ?_,
    fun item hitem => ?_, fun task htask => ?_⟩
  · simp [hopened] at found
  · simp [hentered] at hitem
  · simp [hfinished] at hnumber
  · simp [hfound] at hitem
  · obtain ⟨item, fits, rfl | rfl⟩ := sets.items task htask
    · exact fits
    · exact fits

/-- A walk that sets out is sound. -/
theorem SetsOut.sound (sets : SetsOut tree first agenda) :
    first.Sound tree (Ground tree first agenda) first agenda := by
  obtain ⟨_, hcomplete, hopened, hentered, hfinished⟩ := sets.tables
  refine ⟨fun number nesting found => ⟨found, fun level => ?_⟩, fun number nesting found missing => ?_,
    fun level number found => ?_, fun item hitem => ?_, fun number hnumber => ?_, fun complete => ?_,
    fun task htask => ?_⟩
  · simp [hopened]
  · rw [found] at missing
    cases missing
  · simp [hopened] at found
  · simp [hentered] at hitem
  · simp [hfinished] at hnumber
  · simp [hcomplete] at complete
  · obtain ⟨item, fits, rfl | rfl⟩ := sets.items task htask
    · refine ⟨fun stack h => ⟨.before item.node stack, ⟨item.nesting, h, htask⟩, .refl⟩, ?_⟩
      intro level number found
      simp [hopened] at found
    · refine ⟨fun stack h => ⟨.behind item.node stack, ⟨item.nesting, h, htask⟩, .refl⟩, ?_⟩
      intro level number found
      simp [hopened] at found

/-- On a walk that sets out nothing is in the tables that would have to be covered. -/
theorem SetsOut.covered (sets : SetsOut tree first agenda) : first.Covered tree agenda := by
  obtain ⟨_, _, _, hentered, hfinished⟩ := sets.tables
  refine ⟨fun item hitem => ?_, fun item hitem => ?_, fun item hitem => ?_, fun number hnumber => ?_⟩
  · simp [hentered] at hitem
  · simp [hentered] at hitem
  · simp [hentered] at hitem
  · simp [hfinished] at hnumber

/-- Silent moves do not leave the ground of a walk. -/
theorem SetsOut.footing (sets : SetsOut tree first agenda) :
    Footing tree (Ground tree first agenda) first where
  stable _ _ := fun ⟨start, begins, moves⟩ move => ⟨start, begins, moves.tail move⟩
  table := sets.table

/-- The stacks of a nesting that was there when a walk set out are kept. -/
theorem Sound.unfolds {ground : State → Prop} {last : Walk} {rest : List Task} {nesting : Option Nat}
    {stack : List Frame} (sound : last.Sound tree ground first rest) (tidy : last.Tidy tree rest)
    (h : first.position.Unfolds nesting stack) : last.position.Unfolds nesting stack := by
  refine h.transfer (fun number hnumber => ?_) fun number nesting found _ => ?_
  · obtain ⟨other, hother⟩ := exists_of_mem (h.present number hnumber)
    exact mem_of_getElem? (sound.kept number other hother).1
  · have hkept := (sound.kept number nesting found).1
    exact ⟨hkept, tidy.table.present number nesting hkept⟩

/-- Nothing is left of the agenda of a walk that sets out. -/
theorem SetsOut.ends (closed : tree.Closed) (sets : SetsOut tree first agenda) :
    (runFor tree (first.budget tree agenda) first agenda).2 = [] :=
  run_ends closed sets.tidy sets.tables.2.2.1

/-- At the end of a walk everything on its agenda has been done. -/
theorem SetsOut.done (closed : tree.Closed) (sets : SetsOut tree first agenda) :
    (first.run tree agenda).Tidy tree [] ∧
      (first.run tree agenda).Sound tree (Ground tree first agenda) first [] ∧
      (first.run tree agenda).Covered tree [] ∧
      (∀ item, .enter item ∈ agenda → (first.run tree agenda).Comes [] item) ∧
      ∀ item, .advance item ∈ agenda → (first.run tree agenda).GoesOn tree [] item := by
  have hend := sets.ends closed
  -- the last two say of the agenda that it is not lost: what is on it is still to be done or done
  have hkeeps := runFor_keeps (P := fun walk left => walk.Tidy tree left ∧
      walk.Sound tree (Ground tree first agenda) first left ∧ walk.Covered tree left ∧
      (∀ item, .enter item ∈ agenda → walk.Comes left item) ∧
      ∀ item, .advance item ∈ agenda → walk.GoesOn tree left item)
    (fun walk after task rest led ⟨tidy, sound, covered, comes, goes⟩ handles =>
      ⟨tidy.step closed handles, sound.step sets.footing closed tidy handles,
        covered.step tidy handles,
        fun item hitem => (comes item hitem).step (handles.extends tidy.fresh) handles,
        fun item hitem => (goes item hitem).step (handles.extends tidy.fresh) handles⟩)
    (first.budget tree agenda) first agenda
    ⟨sets.tidy, sets.sound, sets.covered, fun _ => .inr, fun _ => .inl⟩
  rw [hend] at hkeeps
  exact hkeeps

/-- What is true of a walk at its end. -/
theorem SetsOut.run (closed : tree.Closed) (sets : SetsOut tree first agenda) :
    (first.run tree agenda).Tidy tree [] ∧
      (first.run tree agenda).Sound tree (Ground tree first agenda) first [] ∧
      (first.run tree agenda).Covered tree [] ∧
      ∀ start, first.Begins agenda start → (first.run tree agenda).Shown tree start := by
  have hdone := sets.done closed
  generalize first.run tree agenda = last at hdone ⊢
  obtain ⟨tidy, sound, covered, comes, goes⟩ := hdone
  refine ⟨tidy, sound, covered, fun start begins => ?_⟩
  cases start with
  | before node stack =>
    obtain ⟨nesting, h, hmem⟩ := begins
    exact ⟨nesting, sound.unfolds tidy h, comes _ hmem⟩
  | behind node stack =>
    obtain ⟨nesting, h, hmem⟩ := begins
    exact ⟨nesting, sound.unfolds tidy h, goes _ hmem⟩
  | complete => exact begins.elim

/-- A walk finds exactly what silent moves lead to from where it sets out. -/
theorem run_exact (closed : tree.Closed) (sets : SetsOut tree first agenda) :
    (∀ node stack, (first.run tree agenda).position.Offers node stack ↔
      (tree.label node).isMethod = true ∧ Ground tree first agenda (.before node stack)) ∧
    ((first.run tree agenda).position.complete = true ↔ Ground tree first agenda .complete) := by
  have hrun := sets.run closed
  generalize first.run tree agenda = last at hrun ⊢
  obtain ⟨tidy, sound, covered, shown⟩ := hrun
  refine ⟨fun node stack => ⟨?_, ?_⟩, sound.complete, ?_⟩
  · rintro ⟨item, hitem, rfl, unfolds⟩
    obtain ⟨hentered, hmethod⟩ := tidy.found item (Array.mem_toList_iff.1 hitem)
    exact ⟨hmethod, (sound.entered item hentered).ground_of_unfolds sets.footing tidy sound unfolds⟩
  · rintro ⟨hmethod, start, begins, moves⟩
    obtain ⟨nesting, unfolds, hentered | pending⟩ := (shown start begins).reaches tidy covered moves
    · exact ⟨⟨node, nesting⟩, Array.mem_toList_iff.2 (covered.offers _ hentered hmethod), rfl, unfolds⟩
    · cases pending
  · rintro ⟨start, begins, moves⟩
    exact (shown start begins).reaches tidy covered moves

end Walk

/-! ## Positions -/

/-- The position offers what the plain machine offers after the calls, and is complete when it is. -/
structure Position.Matches (tree : Tree) (entry : Nat) (calls : List Call) (position : Position) :
    Prop where
  table : Nesting.Table tree position.nestings position.nextNesting
  items : ∀ item ∈ position.items,
    item.Fits tree position.nestings ∧ (tree.label item.node).isMethod = true
  offers : ∀ node stack, position.Offers node stack ↔ Plain.Live tree entry calls node stack
  complete : position.complete = true ↔ Plain.Complete tree entry calls

namespace Position

variable {tree : Tree} {entry : Nat} {position : Position} {calls : List Call}

/-- The items of the position at the end of a walk are methods of the tree in its nestings. -/
theorem fits_of_mem_run (closed : tree.Closed) {first : Walk} {agenda : List Task}
    (sets : Walk.SetsOut tree first agenda) :
    Nesting.Table tree (first.run tree agenda).position.nestings
        (first.run tree agenda).position.nextNesting ∧
      ∀ item ∈ (first.run tree agenda).position.items,
        item.Fits tree (first.run tree agenda).position.nestings ∧
          (tree.label item.node).isMethod = true := by
  have hrun := sets.run closed
  generalize first.run tree agenda = last at hrun ⊢
  obtain ⟨tidy, _⟩ := hrun
  refine ⟨tidy.table, fun item hitem => ?_⟩
  obtain ⟨hentered, hmethod⟩ := tidy.found item (Array.mem_toList_iff.1 hitem)
  exact ⟨tidy.entered item hentered, hmethod⟩

/-- At the beginning of an entry rule. -/
theorem matches_start (closed : tree.Closed) (hentry : entry < tree.size) :
    (start tree entry).Matches tree entry [] := by
  have sets := Walk.setsOut_start hentry
  have hground : ∀ state, Walk.Ground tree {} [.enter ⟨entry, none⟩] state ↔
      Reaches tree (.before entry []) state := by
    intro state
    constructor
    · rintro ⟨start, begins, moves⟩
      cases start with
      | before node stack =>
        obtain ⟨nesting, h, hmem⟩ := begins
        obtain ⟨rfl, rfl⟩ : node = entry ∧ nesting = none := by simpa using hmem
        obtain rfl := unfolds_none_iff.1 h
        exact moves
      | behind node stack =>
        obtain ⟨nesting, h, hmem⟩ := begins
        simp at hmem
      | complete => exact begins.elim
    · exact fun moves => ⟨.before entry [], ⟨none, .top, List.mem_singleton_self _⟩, moves⟩
  obtain ⟨hoffers, hcomplete⟩ := Walk.run_exact closed sets
  obtain ⟨table, hfits⟩ := fits_of_mem_run closed sets
  refine ⟨table, hfits, fun node stack => ?_, ?_⟩
  · rw [start, hoffers, hground, Plain.Live, Plain.after_nil_iff]
  · rw [start, hcomplete, hground, Plain.Complete, Plain.after_nil_iff]

/-- After a call, of which the given items are all that accept it. -/
theorem Matches.after (closed : tree.Closed) (matches_ : position.Matches tree entry calls)
    {call : Call} {items : List Item}
    (hitems : ∀ item, item ∈ items ↔ item ∈ position.items ∧ Accepts tree item.node call) :
    (position.after tree items).Matches tree entry (calls ++ [call]) := by
  have sets := Walk.setsOut_after matches_.table fun item hitem =>
    (matches_.items item ((hitems item).1 hitem).1).1
  have hground : ∀ state, Walk.Ground tree
      { nestings := position.nestingsOf items, nextNesting := position.nextNesting }
      (items.map Task.advance) state ↔ Plain.After tree entry (calls ++ [call]) state := by
    intro state
    rw [Plain.after_append_iff]
    constructor
    · rintro ⟨start, begins, moves⟩
      cases start with
      | before node stack =>
        obtain ⟨nesting, h, hmem⟩ := begins
        simp at hmem
      | behind node stack =>
        obtain ⟨nesting, h, hmem⟩ := begins
        obtain ⟨item, hitem, htask⟩ := List.mem_map.1 hmem
        obtain rfl := Task.advance.inj htask
        obtain ⟨hposition, haccepts⟩ := (hitems _).1 hitem
        have hunfolds : position.Unfolds nesting stack :=
          (unfolds_nestingsOf_iff matches_.table rfl hitem).1 h
        exact ⟨node, stack, ((matches_.offers node stack).1 ⟨_, hposition, rfl, hunfolds⟩).2, haccepts,
          moves⟩
      | complete => exact begins.elim
    · rintro ⟨node, stack, before, haccepts, moves⟩
      obtain ⟨item, hposition, rfl, hunfolds⟩ := (matches_.offers node stack).2 ⟨haccepts.1, before⟩
      have hitem := (hitems item).2 ⟨hposition, haccepts⟩
      exact ⟨.behind item.node stack, ⟨item.nesting,
        (unfolds_nestingsOf_iff matches_.table rfl hitem).2 hunfolds,
        List.mem_map.2 ⟨item, hitem, rfl⟩⟩, moves⟩
  obtain ⟨hoffers, hcomplete⟩ := Walk.run_exact closed sets
  obtain ⟨table, hfits⟩ := fits_of_mem_run closed sets
  refine ⟨table, hfits, fun node stack => ?_, ?_⟩
  · rw [Position.after, hoffers, hground, Plain.Live]
  · rw [Position.after, hcomplete, hground, Plain.Complete]

end Position

end ChainGrammar
