import ChainGrammar.Proofs.Position.Count
import ChainGrammar.Proofs.Tree.Containment
import ChainGrammar.Proofs.Tree.Unfolded
import Mathlib.Data.Prod.Lex

/-!
# The shape of the shared stacks

The nestings of a position are stacks that share what is below them.  They stay in good shape whatever is called
(`Position.Reachable.shaped`): parents are present, listed once and never missing; the node that opened a frame is an
element of the definitions that its parents walk, and only the entry rule is opened at the top level; and a parent has
a lower rank, which is its depth and then the height of its rule in the tree, so that no nesting is below itself.

A walk keeps this because it speaks of a node only in a nesting in which the node is an element of a definition
(`Walk.Placed`): from an alternative of the frame it goes on within the definition, and behind its end to the node
that opened the frame, which is an element of a definition of the parent.
-/

set_option autoImplicit false

namespace ChainGrammar

/-! ## Limits on occurrences -/

namespace Unfolding

/-- Every limit on a number of occurrences is a proper one. -/
inductive Proper : Unfolding → Prop where
  | done : Proper .done
  | step {label : Label} {body : List Unfolding} {next : Unfolding} (here : label.repeats.Proper)
      (inside : ∀ u ∈ body, Proper u) (further : Proper next) : Proper (.step label body next)

theorem proper_ofDefinition {owner : String} {path : List String}
    {body : (target : String) → target ∉ path → List Unfolding}
    (inside : ∀ target off, ∀ u ∈ body target off, Proper u) (definition : Definition)
    (proper : ∀ segment ∈ definition, segment.Proper) :
    Proper (ofDefinition owner path body definition) := by
  induction definition with
  | nil => exact .done
  | cons segment rest ih =>
    have further := ih fun other hother => proper other (List.mem_cons_of_mem _ hother)
    cases segment with
    | symbol => exact .step trivial (by simp) further
    | reference target optional repeats =>
      have here : repeats.Proper := proper _ List.mem_cons_self
      rw [ofDefinition]
      split
      · exact .step here (by simp) further
      · rename_i off
        exact .step here (inside target off) further
    | parameter => exact further
    | value => exact further
    | alternation => exact further

theorem proper_bodyOf {rules : List Rule}
    (proper : ∀ rule ∈ rules, ∀ definition ∈ rule.definitions, ∀ segment ∈ definition, segment.Proper)
    (path : List String) (name : String) (off : name ∉ path) :
    ∀ u ∈ bodyOf rules path name off, Proper u := by
  fun_induction bodyOf rules path name off with
  | case1 => simp
  | case2 path name off rule found fewer ih =>
    intro u hu
    obtain ⟨definition, hdefinition, rfl⟩ := List.mem_map.1 hu
    exact proper_ofDefinition ih definition (proper rule (Rules.find?_mem found) definition hdefinition)

mutual

theorem Proper.nodes {u : Unfolding} (h : u.Proper) (parent base : Nat) :
    ∀ node ∈ u.nodes parent base, node.label.repeats.Proper := by
  cases h with
  | done => simp [Unfolding.nodes]
  | step here inside further =>
    intro node hnode
    rw [Unfolding.nodes, List.mem_cons, List.mem_append] at hnode
    rcases hnode with rfl | hnode | hnode
    · exact here
    · exact proper_nodesOfAll _ inside _ _ node hnode
    · exact further.nodes _ _ node hnode

theorem proper_nodesOfAll (us : List Unfolding) (h : ∀ u ∈ us, Proper u) (parent base : Nat) :
    ∀ node ∈ nodesOfAll parent base us, node.label.repeats.Proper := by
  cases us with
  | nil => simp [nodesOfAll]
  | cons first rest =>
    intro node hnode
    rw [nodesOfAll, List.mem_append] at hnode
    rcases hnode with hnode | hnode
    · exact (h first List.mem_cons_self).nodes _ _ node hnode
    · exact proper_nodesOfAll rest (fun u hu => h u (List.mem_cons_of_mem _ hu)) _ _ node hnode

end

end Unfolding

/-! ## Elements of definitions -/

namespace Tree

variable {tree : Tree} {rules : List Rule} {options : Options}

/-- The nodes of a definition from a node on. -/
inductive Follows (tree : Tree) (first : Nat) : Nat → Prop where
  | refl : Follows tree first first
  | next {node following : Nat} (before : Follows tree first node)
      (found : tree.next? node = some following) : Follows tree first following

/-- Is the node an element of a definition of the rule, and not only of a rule further down? -/
def IsElement (tree : Tree) (rule id : Nat) : Prop := ∃ first ∈ tree.body rule, tree.Follows first id

/-- How far down in the tree a node is: the number of nodes on its way up. -/
def height (tree : Tree) (id : Nat) : Nat := (tree.ancestors id).length

theorem IsElement.contains {rule id : Nat} (h : tree.IsElement rule id) : tree.Contains rule id := by
  obtain ⟨first, member, follows⟩ := h
  refine ⟨first, member, ?_⟩
  induction follows with
  | refl => exact .refl
  | next _ found ih => exact .further ih (List.mem_of_mem_head? found)

theorem height_lt_of_mem_ancestors {outer inner : Nat} (h : outer ∈ tree.ancestors inner) :
    tree.height outer < tree.height inner := by
  induction inner using Nat.strongRecOn with
  | _ inner ih =>
    cases hparent : tree.parent? inner with
    | none =>
      rw [ancestors_of_parent?_none hparent] at h
      cases h
    | some parent =>
      have hheight : tree.height inner = tree.height parent + 1 := by
        rw [height, ancestors_of_parent? hparent, List.length_cons, height]
      rw [ancestors_of_parent? hparent] at h
      rcases List.mem_cons.1 h with rfl | h
      · omega
      · have := ih parent (parent?_lt hparent) h
        omega

/-- The limits in the tree of rules that have been written are proper. -/
theorem proper_repeats (authored : Rules.Authored rules) (built : Tree.ofRules rules options = .ok tree)
    (id : Nat) : (tree.label id).repeats.Proper := by
  refine forall_label (P := fun label => label.repeats.Proper) trivial (fun node hnode => ?_) id
  obtain ⟨_, _, entries, _, rfl⟩ := ofRules_ok built
  have hmem : node ∈ rootNode (entries.map (Unfolding.ofEntry rules)) ::
      Unfolding.nodesOfAll 0 1 (entries.map (Unfolding.ofEntry rules)) := hnode
  rcases List.mem_cons.1 hmem with rfl | hmem
  · trivial
  · refine Unfolding.proper_nodesOfAll _ (fun u hu => ?_) _ _ node hmem
    obtain ⟨name, _, rfl⟩ := List.mem_map.1 hu
    exact .step trivial (Unfolding.proper_bodyOf authored.proper _ _ _) .done

/-- An entry rule is entered at its own node, and nothing follows it. -/
theorem entry_facts (authored : Rules.Authored rules) (built : Tree.ofRules rules options = .ok tree)
    {entry : Nat} (hentry : entry ∈ tree.entryPoints) :
    tree.next? entry = none ∧ tree.opens? entry = some entry := by
  obtain ⟨_, _, names, hnames, laid⟩ := ofRules_ok built
  have shown := showsEntries (authored.compilable built) hnames laid
  obtain ⟨i, hi, rfl⟩ := List.mem_iff_getElem.1 hentry
  have shows_ := shown.get (shown.length_eq ▸ hi) hi
  constructor
  · rw [next?]
    exact congrArg List.head? shows_.last
  · unfold opens?
    have hlabel := shows_.label
    simp only [List.get_eq_getElem] at hlabel
    rw [show tree.label tree.entryPoints[i] = _ from hlabel]

end Tree

/-! ## Walks -/

/-- The nodes that are met in a nesting: the elements of the definitions of its frame, and at the top level the entry
rule only. -/
def Nesting.Meets (tree : Tree) (entry : Nat) (nestings : Std.TreeMap Nat Nesting) :
    Option Nat → Nat → Prop
  | none, id => id = entry
  | some number, id =>
    ∃ nesting : Nesting, nestings[number]? = some nesting ∧ tree.IsElement nesting.frame.body id

/-- Every frame of the table was opened by a node that is met in each of its parents. -/
def Nesting.Linked (tree : Tree) (entry : Nat) (nestings : Std.TreeMap Nat Nesting) : Prop :=
  ∀ (number : Nat) (nesting : Nesting), nestings[number]? = some nesting →
    ∀ parent ∈ nesting.parents, Nesting.Meets tree entry nestings parent nesting.frame.origin

/-- The task is about a node that is met in the nesting. -/
def Task.Placed (tree : Tree) (entry : Nat) (walk : Walk) : Task → Prop
  | .enter item => Nesting.Meets tree entry walk.nestings item.nesting item.node
  | .descend frame parent => Nesting.Meets tree entry walk.nestings parent frame.origin
  | .advance item => Nesting.Meets tree entry walk.nestings item.nesting item.node
  | .resume _ _ => True

namespace Walk

variable {tree : Tree} {entry : Nat} {walk after first : Walk} {task : Task} {agenda rest led : List Task}

/-- A walk speaks of nodes only where they are met, finds nothing twice, and opens nothing too deep. -/
structure Placed (tree : Tree) (entry : Nat) (walk : Walk) (agenda : List Task) : Prop where
  linked : Nesting.Linked tree entry walk.nestings
  within : ∀ (number : Nat) (nesting : Nesting), walk.nestings[number]? = some nesting →
    nesting.depth ≤ tree.maxDepth
  entered : ∀ item ∈ walk.entered, Nesting.Meets tree entry walk.nestings item.nesting item.node
  distinct : walk.found.toList.Nodup
  agenda : ∀ task ∈ agenda, task.Placed tree entry walk

/-- A node that is met in a nesting is met in it later. -/
theorem Extends.meets (extends_ : walk.Extends after) {nesting : Option Nat} {id : Nat}
    (h : Nesting.Meets tree entry walk.nestings nesting id) :
    Nesting.Meets tree entry after.nestings nesting id := by
  cases nesting with
  | none => exact h
  | some number =>
    obtain ⟨nesting, found, element⟩ := h
    obtain ⟨later, hlater, hlevel, _⟩ := extends_.nestings number nesting found
    have hframe : later.frame = nesting.frame := congrArg Level.frame hlevel
    exact ⟨later, hlater, hframe ▸ element⟩

theorem Extends.placed (extends_ : walk.Extends after) {pending : Task}
    (placed : pending.Placed tree entry walk) : pending.Placed tree entry after := by
  cases pending with
  | enter item => exact extends_.meets placed
  | descend frame parent => exact extends_.meets placed
  | advance item => exact extends_.meets placed
  | resume number parent => trivial

/-- The alternatives of an open frame are met in its nesting. -/
theorem placed_alternatives {frame : Frame} {number : Nat} {nesting : Nesting}
    (found : walk.nestings[number]? = some nesting) (hframe : nesting.frame = frame) :
    ∀ other ∈ alternatives tree frame number, other.Placed tree entry walk := by
  intro other hother
  obtain ⟨node, hnode, rfl⟩ := List.mem_map.1 hother
  exact ⟨nesting, found, node, hframe ▸ hnode, .refl⟩

theorem Placed.linked_step (placed : walk.Placed tree entry (task :: rest))
    (tidy : walk.Tidy tree (task :: rest)) (h : Handles tree walk task after led) :
    Nesting.Linked tree entry after.nestings := by
  have extends_ := h.extends tidy.fresh
  have htask : task.Placed tree entry walk := placed.agenda task List.mem_cons_self
  have hearlier : ∀ (number : Nat) (nesting : Nesting), walk.nestings[number]? = some nesting →
      ∀ parent ∈ nesting.parents, Nesting.Meets tree entry after.nestings parent nesting.frame.origin :=
    fun number nesting found parent hparent =>
      extends_.meets (placed.linked number nesting found parent hparent)
  intro number nesting found parent hparent
  cases h with
  | opens =>
    rw [getElem?_openNesting] at found
    split at found
    · obtain rfl := Option.some.inj found
      obtain rfl := List.mem_singleton.1 hparent
      exact extends_.meets htask
    · exact hearlier number nesting found parent hparent
  | @joins frame joined added _ isOpen =>
    obtain ⟨earlier, hfound, hlevel, hparents⟩ := earlier_of_addParent found
    have hframe : nesting.frame = earlier.frame := congrArg Level.frame hlevel
    rw [hframe]
    rcases hparents with hparents | ⟨rfl, hparents⟩
    · exact hearlier number earlier hfound parent (hparents ▸ hparent)
    · rw [hparents, List.mem_append, List.mem_singleton] at hparent
      rcases hparent with hparent | rfl
      · exact hearlier number earlier hfound parent hparent
      · -- the frame that is open already is the one that was to be opened
        obtain ⟨_, other, hother, hopen⟩ := tidy.opened _ _ isOpen
        obtain rfl := Option.some.inj (hfound.symm.trans hother)
        have hsame : earlier.frame = frame := congrArg Level.frame hopen
        rw [hsame]
        exact extends_.meets htask
  | _ => exact hearlier number nesting found parent hparent

theorem Placed.within_step (placed : walk.Placed tree entry (task :: rest))
    (h : Handles tree walk task after led) {number : Nat} {nesting : Nesting}
    (found : after.nestings[number]? = some nesting) : nesting.depth ≤ tree.maxDepth := by
  cases h with
  | opens within =>
    rw [getElem?_openNesting] at found
    split at found
    · obtain rfl := Option.some.inj found
      exact within
    · exact placed.within number nesting found
  | joins =>
    obtain ⟨earlier, hfound, hlevel, _⟩ := earlier_of_addParent found
    have hdepth : nesting.depth = earlier.depth := congrArg Level.depth hlevel
    rw [hdepth]
    exact placed.within number earlier hfound
  | _ => exact placed.within number nesting found

theorem Placed.entered_step (placed : walk.Placed tree entry (task :: rest))
    (tidy : walk.Tidy tree (task :: rest)) (h : Handles tree walk task after led) {item : Item}
    (hitem : item ∈ after.entered) : Nesting.Meets tree entry after.nestings item.nesting item.node := by
  have extends_ := h.extends tidy.fresh
  have htask : task.Placed tree entry walk := placed.agenda task List.mem_cons_self
  cases h with
  | sees =>
    rcases (mem_entered_see _ item).1 hitem with rfl | hitem
    · exact htask
    · exact placed.entered item hitem
  | _ => exact extends_.meets (placed.entered item hitem)

/-- An item is found when it is entered for the first time. -/
theorem Placed.distinct_step (placed : walk.Placed tree entry (task :: rest))
    (tidy : walk.Tidy tree (task :: rest)) (h : Handles tree walk task after led) :
    after.found.toList.Nodup := by
  cases h with
  | @sees item fresh =>
    rw [see]
    dsimp only
    split
    · rw [Array.toList_push, List.nodup_append]
      refine ⟨placed.distinct, List.nodup_singleton _, ?_⟩
      rintro other hother _ hitem rfl
      obtain rfl := List.mem_singleton.1 hitem
      exact fresh (tidy.found other (Array.mem_toList_iff.1 hother)).1
    · exact placed.distinct
  | _ => exact placed.distinct

/-- The tasks that a step leads to are about nodes that are met. -/
theorem Placed.placed_led (last : tree.next? entry = none)
    (placed : walk.Placed tree entry (task :: rest)) (tidy : walk.Tidy tree (task :: rest))
    (h : Handles tree walk task after led) : ∀ other ∈ led, other.Placed tree entry after := by
  have extends_ := h.extends tidy.fresh
  have htask : task.Placed tree entry walk := placed.agenda task List.mem_cons_self
  intro other hother
  cases h with
  | known | tooDeep | ended | lost | completes => cases hother
  | @sees item =>
    rcases List.mem_append.1 hother with hother | hother
    · obtain ⟨body, _, rfl⟩ := Option.map_eq_some_iff.1 (Option.mem_toList.1 hother)
      exact htask
    · split at hother
      · obtain rfl := List.mem_singleton.1 hother
        exact htask
      · cases hother
  | opens =>
    exact placed_alternatives ((getElem?_openNesting _ _ _).trans (if_pos rfl)) rfl other hother
  | shares _ isOpen =>
    obtain ⟨_, nesting, found, hlevel⟩ := tidy.opened _ _ isOpen
    exact placed_alternatives found (congrArg Level.frame hlevel) other hother
  | joins _ isOpen =>
    rcases List.mem_append.1 hother with hother | hother
    · split at hother
      · obtain rfl := List.mem_singleton.1 hother
        trivial
      · cases hother
    · obtain ⟨_, nesting, found, hlevel⟩ := tidy.opened _ _ isOpen
      exact extends_.placed (placed_alternatives found (congrArg Level.frame hlevel) other hother)
  | @goesOn item next found =>
    obtain rfl := List.mem_singleton.1 hother
    obtain ⟨node, nesting⟩ := item
    cases nesting with
    | none =>
      -- nothing follows the entry rule
      obtain rfl : node = entry := htask
      rw [last] at found
      cases found
    | some number =>
      obtain ⟨nesting, hnesting, first, hfirst, follows⟩ := htask
      exact ⟨nesting, hnesting, first, hfirst, .next follows found⟩
  | finishes =>
    obtain ⟨parent, _, rfl⟩ := List.mem_map.1 hother
    trivial
  | @resumes number parent nesting found =>
    have fits : Task.Fits tree walk (.resume number parent) := tidy.agenda _ List.mem_cons_self
    have hparent : parent ∈ nesting.parents := parents_of_getElem? found ▸ fits.2
    have hmeets := placed.linked number nesting found parent hparent
    rcases List.mem_append.1 hother with hother | hother
    · split at hother
      · obtain rfl := List.mem_singleton.1 hother
        have horigin := (nesting.frame.following_same (tree.label nesting.frame.origin).repeats).1
        rw [Task.Placed, horigin]
        exact hmeets
      · cases hother
    · obtain rfl := List.mem_singleton.1 hother
      exact hmeets

/-- Handling a task leaves a walk placed. -/
theorem Placed.step (last : tree.next? entry = none) (placed : walk.Placed tree entry (task :: rest))
    (tidy : walk.Tidy tree (task :: rest)) (h : Handles tree walk task after led) :
    after.Placed tree entry (led ++ rest) where
  linked := placed.linked_step tidy h
  within _ _ := placed.within_step h
  entered _ := placed.entered_step tidy h
  distinct := placed.distinct_step tidy h
  agenda other hother := by
    rcases List.mem_append.1 hother with hother | hother
    · exact placed.placed_led last tidy h other hother
    · exact (h.extends tidy.fresh).placed (placed.agenda other (List.mem_cons_of_mem _ hother))

/-- A walk that sets out placed is tidy and placed at its end. -/
theorem SetsOut.placed_run (closed : tree.Closed) (last : tree.next? entry = none)
    (sets : SetsOut tree first agenda) (placed : first.Placed tree entry agenda) :
    (first.run tree agenda).Tidy tree [] ∧ (first.run tree agenda).Placed tree entry [] := by
  have hend := sets.ends closed
  have hkeeps := runFor_keeps (P := fun walk left => walk.Tidy tree left ∧ walk.Placed tree entry left)
    (fun walk after task rest led ⟨tidy, placed⟩ handles =>
      ⟨tidy.step closed handles, placed.step last tidy handles⟩)
    (first.budget tree agenda) first agenda ⟨sets.tidy, placed⟩
  rw [hend] at hkeeps
  exact hkeeps

end Walk

/-! ## Positions -/

namespace Position

variable {tree : Tree} {entry : Nat} {position : Position}

/-- The positions that walks lead to from an entry rule, whichever items are gone on from. -/
inductive Reachable (tree : Tree) (entry : Nat) : Position → Prop where
  | start : Reachable tree entry (.start tree entry)
  | after {position : Position} {items : List Item} (before : Reachable tree entry position)
      (part : items ⊆ position.items) : Reachable tree entry (position.after tree items)

/-- What is kept of a position from call to call. -/
structure Placed (tree : Tree) (entry : Nat) (position : Position) : Prop where
  table : Nesting.Table tree position.nestings position.nextNesting
  counted : Nesting.Counted tree position.nestings
  linked : Nesting.Linked tree entry position.nestings
  within : ∀ (number : Nat) (nesting : Nesting), position.nestings[number]? = some nesting →
    nesting.depth ≤ tree.maxDepth
  fits : ∀ item ∈ position.items, item.Fits tree position.nestings
  meets : ∀ item ∈ position.items, Nesting.Meets tree entry position.nestings item.nesting item.node
  distinct : position.items.Nodup

theorem placed_run (closed : tree.Closed) (last : tree.next? entry = none) {first : Walk}
    {agenda : List Task} (sets : Walk.SetsOut tree first agenda) (placed : first.Placed tree entry agenda)
    (counted : Nesting.Counted tree (first.run tree agenda).nestings) :
    (first.run tree agenda).position.Placed tree entry := by
  obtain ⟨tidy, placed⟩ := sets.placed_run closed last placed
  generalize first.run tree agenda = walk at tidy placed counted ⊢
  have hentered : ∀ item ∈ walk.position.items, item ∈ walk.entered := fun item hitem =>
    (tidy.found item (Array.mem_toList_iff.1 hitem)).1
  exact ⟨tidy.table, counted, placed.linked, placed.within, fun item hitem => tidy.entered item (hentered item hitem),
    fun item hitem => placed.entered item (hentered item hitem), placed.distinct⟩

theorem placed_start (closed : tree.Closed) (last : tree.next? entry = none) (inside : entry < tree.size) :
    (start tree entry).Placed tree entry := by
  refine placed_run closed last (Walk.setsOut_start inside) ?_ (counted_start tree entry)
  refine ⟨fun number nesting found => ?_, fun number nesting found => ?_, fun item hitem => ?_,
    List.nodup_nil, fun task htask => ?_⟩
  · simp at found
  · simp at found
  · simp at hitem
  · obtain rfl := List.mem_singleton.1 htask
    rfl

/-- A node that is met in a nesting is met in it where the nesting is carried over. -/
theorem meets_nestingsOf {items : List Item} {nesting : Option Nat} {id : Nat}
    (present : Nesting.Present (position.nestingsOf items) nesting)
    (h : Nesting.Meets tree entry position.nestings nesting id) :
    Nesting.Meets tree entry (position.nestingsOf items) nesting id := by
  cases nesting with
  | none => exact h
  | some number =>
    obtain ⟨nesting, found, element⟩ := h
    exact ⟨nesting, getElem?_nestingsOf found (present number rfl), element⟩

theorem Placed.after (closed : tree.Closed) (last : tree.next? entry = none)
    (placed : position.Placed tree entry) {items : List Item} (part : items ⊆ position.items) :
    (position.after tree items).Placed tree entry := by
  have gathered := position.gathered_nestingsOf items
  have table := table_nestingsOf placed.table items
  refine placed_run closed last
    (Walk.setsOut_after placed.table fun item hitem => placed.fits item (part hitem)) ?_
    (counted_after placed.counted items)
  refine ⟨fun number nesting found parent hparent => ?_, fun number nesting found => ?_,
    fun item hitem => ?_, List.nodup_nil, fun task htask => ?_⟩
  · exact meets_nestingsOf (table.present number nesting found parent hparent)
      (placed.linked number nesting (gathered.part number nesting found) parent hparent)
  · exact placed.within number nesting (gathered.part number nesting found)
  · simp at hitem
  · obtain ⟨item, hitem, rfl⟩ := List.mem_map.1 htask
    refine meets_nestingsOf (fun number hnumber => ?_) (placed.meets item (part hitem))
    exact gathered.wanted number ⟨item, hitem, hnumber⟩
      ((placed.fits item (part hitem)).present number hnumber)

theorem Reachable.placed (closed : tree.Closed) (last : tree.next? entry = none) (inside : entry < tree.size)
    (h : position.Reachable tree entry) : position.Placed tree entry := by
  induction h with
  | start => exact placed_start closed last inside
  | after _ part ih => exact ih.after closed last part

end Position

/-! ## The shape of a position -/

/-- The order of nestings: by depth, and within a depth by how far down in the tree the rule is. -/
def Nesting.rank (tree : Tree) (nesting : Nesting) : Nat ×ₗ Nat :=
  toLex (nesting.depth, tree.height nesting.frame.body)

/-- The first nesting is directly below the second. -/
def Position.Below (position : Position) (below above : Nat) : Prop :=
  ∃ nesting : Nesting, position.nestings[above]? = some nesting ∧ some below ∈ nesting.parents

/-- A nesting of a position is in good shape. -/
structure Nesting.Shaped (tree : Tree) (entry : Nat) (position : Position) (number : Nat)
    (nesting : Nesting) : Prop where
  nonempty : nesting.parents ≠ []
  distinct : nesting.parents.Nodup
  present : ∀ parent ∈ nesting.parents, Nesting.Present position.nestings parent
  /-- Only the entry rule is opened at the top level. -/
  top : none ∈ nesting.parents → nesting.frame.origin = entry ∧ nesting.frame.body = entry
  /-- Elsewhere a frame is opened by an element of a definition that its parent walks. -/
  element : ∀ below (other : Nesting), some below ∈ nesting.parents →
    position.nestings[below]? = some other → tree.IsElement other.frame.body nesting.frame.origin
  rank : ∀ below (other : Nesting), some below ∈ nesting.parents →
    position.nestings[below]? = some other → other.rank tree < nesting.rank tree
  /-- On all its stacks there are as many frames of back-edges as its depth says. -/
  depth : ∀ stack, position.Unfolds (some number) stack → Frame.depthOf tree stack = nesting.depth
  within : nesting.depth ≤ tree.maxDepth
  limited : ∀ limit, (tree.label nesting.frame.origin).repeats = .times limit →
    1 ≤ nesting.frame.iteration ∧ nesting.frame.iteration ≤ limit.toNat
  single : (∀ limit, (tree.label nesting.frame.origin).repeats ≠ .times limit) →
    nesting.frame.iteration = 1

/-- The items and the nestings of a position are in good shape. -/
structure Position.Shaped (tree : Tree) (entry : Nat) (position : Position) : Prop where
  items : ∀ item ∈ position.items, Nesting.Present position.nestings item.nesting
  distinct : position.items.Nodup
  nestings : ∀ (number : Nat) (nesting : Nesting), position.nestings[number]? = some nesting →
    nesting.Shaped tree entry position number
  acyclic : ∀ number, ¬Relation.TransGen position.Below number number

namespace Position

variable {tree : Tree} {entry : Nat} {position : Position} {rules : List Rule} {options : Options}

/-- A parent has a lower rank: at a back-edge the depth grows, and the node of a rule has the rule that it is an element
of on its way up. -/
theorem Placed.rank_lt (built : Tree.ofRules rules options = .ok tree)
    (placed : position.Placed tree entry) {number below : Nat} {nesting other : Nesting}
    (found : position.nestings[number]? = some nesting) (member : some below ∈ nesting.parents)
    (hother : position.nestings[below]? = some other) : other.rank tree < nesting.rank tree := by
  have hdepth := placed.table.depth number nesting found _ member
  rw [Nesting.depthIn, hother] at hdepth
  simp only [Option.map_some, Option.getD_some] at hdepth
  rw [Nesting.rank, Nesting.rank, Prod.Lex.toLex_lt_toLex]
  rcases Tree.opens?_eq_some_iff.1 (placed.counted number nesting found).opens with
    ⟨⟨name, optional, repeats, hlabel⟩, hbody⟩ | htarget
  · -- the frame of a rule: the depth stays, and the rule is further down
    rw [hlabel] at hdepth
    obtain ⟨parent, hparent, element⟩ := placed.linked number nesting found _ member
    obtain rfl := Option.some.inj (hother.symm.trans hparent)
    refine .inr ⟨hdepth.symm, Tree.height_lt_of_mem_ancestors ?_⟩
    rw [hbody]
    exact element.contains.mem_ancestors built
  · -- the frame of a back-edge: the depth grows
    rw [Tree.isBackEdge_of_target? htarget] at hdepth
    exact .inl (by simp only [if_true] at hdepth; omega)

/-- What is below a nesting, however far, has a lower rank. -/
theorem Placed.rank_lt_of_transGen (built : Tree.ofRules rules options = .ok tree)
    (placed : position.Placed tree entry) {below above : Nat}
    (h : Relation.TransGen position.Below below above) {first last : Nesting}
    (hfirst : position.nestings[below]? = some first) (hlast : position.nestings[above]? = some last) :
    first.rank tree < last.rank tree := by
  induction h generalizing last with
  | single step =>
    obtain ⟨nesting, found, member⟩ := step
    obtain rfl := Option.some.inj (hlast.symm.trans found)
    exact placed.rank_lt built found member hfirst
  | tail _ step ih =>
    obtain ⟨nesting, found, member⟩ := step
    obtain rfl := Option.some.inj (hlast.symm.trans found)
    obtain ⟨middle, hmiddle⟩ := Walk.exists_of_mem (placed.table.present _ _ found _ member _ rfl)
    exact (ih hmiddle).trans (placed.rank_lt built found member hmiddle)

/-- The number of an occurrence is within a proper limit, and one where there is none. -/
theorem Placed.iteration (authored : Rules.Authored rules) (built : Tree.ofRules rules options = .ok tree)
    (placed : position.Placed tree entry) {number : Nat} {nesting : Nesting}
    (found : position.nestings[number]? = some nesting) :
    (∀ limit, (tree.label nesting.frame.origin).repeats = .times limit →
      1 ≤ nesting.frame.iteration ∧ nesting.frame.iteration ≤ limit.toNat) ∧
    ((∀ limit, (tree.label nesting.frame.origin).repeats ≠ .times limit) →
      nesting.frame.iteration = 1) := by
  obtain ⟨_, positive, counted⟩ := placed.counted number nesting found
  have proper := Tree.proper_repeats authored built nesting.frame.origin
  constructor
  · intro limit hlimit
    rw [hlimit] at counted proper
    simp only [Repeat.occurrences, Repeat.Proper] at counted proper
    omega
  · intro unlimited
    cases hrepeats : (tree.label nesting.frame.origin).repeats with
    | times limit => exact absurd hrepeats (unlimited limit)
    | once | unbounded =>
      rw [hrepeats] at counted
      exact Nat.le_antisymm counted positive

theorem Placed.shaped (authored : Rules.Authored rules) (built : Tree.ofRules rules options = .ok tree)
    (opens : tree.opens? entry = some entry) (placed : position.Placed tree entry) :
    position.Shaped tree entry where
  items item hitem := (placed.fits item hitem).present
  distinct := placed.distinct
  nestings number nesting found := {
    nonempty := by
      obtain ⟨parent, hparent, _⟩ := placed.table.founded number nesting found
      exact List.ne_nil_of_mem hparent
    distinct := placed.table.distinct number nesting found
    present := placed.table.present number nesting found
    top := by
      intro top
      have horigin : nesting.frame.origin = entry := placed.linked number nesting found none top
      have hopens := (placed.counted number nesting found).opens
      rw [horigin, opens] at hopens
      exact ⟨horigin, (Option.some.inj hopens).symm⟩
    element := by
      intro below other member hother
      obtain ⟨parent, hparent, element⟩ := placed.linked number nesting found _ member
      obtain rfl := Option.some.inj (hother.symm.trans hparent)
      exact element
    rank := fun below other member hother => placed.rank_lt built found member hother
    depth := by
      intro stack unfolds
      rw [unfolds.depthOf_eq placed.table, Nesting.depthIn, found]
      rfl
    within := placed.within number nesting found
    limited := (placed.iteration authored built found).1
    single := (placed.iteration authored built found).2 }
  acyclic number cycle := by
    obtain ⟨below, _, nesting, found, _⟩ := Relation.TransGen.tail'_iff.1 cycle
    exact lt_irrefl _ (placed.rank_lt_of_transGen built cycle found found)

end Position

/-! ## Chains -/

variable {σ τ : Type}

/-- Calls lead to positions that are reachable. -/
theorem Chain.reachable_callAll {chain after : Chain σ τ} {entry : Nat} {calls : List Call} {state state' : σ}
    (reachable : chain.position.Reachable chain.api.tree entry)
    (runs : (chain.callAll calls).run state = (.ok after, state')) :
    after.position.Reachable chain.api.tree entry := by
  induction calls generalizing chain state with
  | nil =>
    obtain rfl := Except.ok.inj (Prod.mk.inj runs).1
    exact reachable
  | cons next rest ih =>
    rw [callAll_cons] at runs
    split at runs
    · cases runs
    · rename_i middle state'' hcall
      obtain ⟨hapi, hposition⟩ := call_ok hcall
      rw [← hapi]
      refine ih ?_ runs
      rw [hapi, hposition]
      exact .after reachable (chain.callable_subset _ _)

/-- Whatever the hooks do, all positions that a chain comes to are in good shape, and so are all others that walks lead
to from the entry rule. -/
theorem Chain.positions_shaped {api : Api σ τ} {rules : List Rule} {options : Options}
    (authored : Rules.Authored rules) (built : Tree.ofRules rules options = .ok api.tree) {entry : Nat}
    (hentry : entry ∈ api.tree.entryPoints) :
    (∀ position, Position.Reachable api.tree entry position → position.Shaped api.tree entry) ∧
      ∀ (begin chain : Chain σ τ) (calls : List Call) (state state₁ state₂ : σ),
        (api.chainAt entry).run state = (begin, state₁) →
        (begin.callAll calls).run state₁ = (.ok chain, state₂) →
        chain.position.Reachable api.tree entry ∧ chain.position.Shaped api.tree entry := by
  have closed := Tree.closed_ofRules built
  have inside := closed.lt_size_of_mem_entryPoints hentry
  obtain ⟨last, opens⟩ := Tree.entry_facts authored built hentry
  have shaped : ∀ position, Position.Reachable api.tree entry position → position.Shaped api.tree entry :=
    fun position reachable => (reachable.placed closed last inside).shaped authored built opens
  refine ⟨shaped, fun begin chain calls state state₁ state₂ begins runs => ?_⟩
  obtain ⟨rfl, rfl⟩ := Prod.mk.inj begins
  have reachable : chain.position.Reachable api.tree entry := reachable_callAll .start runs
  exact ⟨reachable, shaped _ reachable⟩

/-- At the beginning and behind a bracket around a name. -/
theorem Chain.positions_shaped_brackets :
    Rules.Authored bracketRules ∧ Tree.ofRules bracketRules .initial = .ok bracketTree ∧
      1 ∈ bracketTree.entryPoints ∧
      (Position.start bracketTree 1).nestings[0]? = some ⟨⟨⟨1, 1, 1⟩, 0⟩, [none]⟩ ∧
      (Position.start bracketTree 1).Shaped bracketTree 1 ∧
      ∃ chain : Chain Unit Transcript,
        ((((Api.mk bracketTree .transcript).chainAt 1).run ()).1.callAll bracketCalls).run () =
          (.ok chain, ()) ∧
        chain.position.Reachable bracketTree 1 ∧ chain.position.Shaped bracketTree 1 := by
  have hentry : 1 ∈ (Api.mk bracketTree (.transcript : Hooks Unit Transcript)).tree.entryPoints := by
    decide +kernel
  obtain ⟨chain, runs⟩ := exists_transcript bracketTree_built hentry bracketCalls_after
  obtain ⟨shaped, along⟩ := positions_shaped bracketRules_authored bracketTree_built hentry
  exact ⟨bracketRules_authored, bracketTree_built, hentry, by decide +kernel, shaped _ .start, chain, runs,
    along _ _ _ () () () rfl runs⟩

end ChainGrammar
