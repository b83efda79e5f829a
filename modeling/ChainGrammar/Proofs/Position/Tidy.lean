import ChainGrammar.Proofs.Position.Steps
import ChainGrammar.Proofs.Tree.Layout
import Mathlib.Algebra.Order.BigOperators.Group.List
import Mathlib.Algebra.Order.Group.Nat
import Mathlib.Data.List.Nodup

/-!
# Walks stay tidy

The tables of a walk refer to each other and to the tree: parents are nestings of the table and are
listed once, the depth of a nesting is the depth of each of its parents, one more where a back-edge
opened it, and what is entered, opened or finished is a node of the tree in a nesting of the table.  A
walk with an agenda on which nothing points outside either is tidy (`Walk.Tidy`), and handling a task
leaves it so (`Walk.Tidy.step`).
-/

set_option autoImplicit false

namespace ChainGrammar

namespace Tree

/-- What hangs from a node is in the tree, and there is no more of it than nodes. -/
structure Closed (tree : Tree) : Prop where
  below : ∀ id, ∀ other ∈ tree.below id, other < tree.size
  few : ∀ id, (tree.body id).length ≤ tree.size

/-- A laid-out tree is closed. -/
theorem closed_ofEntries (maxDepth : Nat) (entries : List Unfolding) :
    (ofEntries maxDepth entries).Closed where
  below _ _ h := lt_size_of_parent? (mem_below_iff.1 h)
  few id := by
    have hperm := below_perm maxDepth entries
    rcases Nat.lt_or_ge id (ofEntries maxDepth entries).size with hid | hid
    · have hlength := hperm.length_eq
      rw [List.length_flatMap, List.length_range'] at hlength
      have hmem : ((ofEntries maxDepth entries).below id).length ∈
          (List.range (ofEntries maxDepth entries).size).map
            fun id => ((ofEntries maxDepth entries).below id).length :=
        List.mem_map.2 ⟨id, List.mem_range.2 hid, rfl⟩
      have hle := List.single_le_sum (fun _ _ => Nat.zero_le _) _ hmem
      rw [hlength, below, List.length_append] at hle
      omega
    · have hnil := below_eq_nil hid
      rw [below, List.append_eq_nil_iff] at hnil
      rw [hnil.1]
      exact Nat.zero_le _

variable {tree : Tree}

/-- A node at which a rule is entered is in the tree, and so is the node of the rule. -/
theorem lt_size_of_opens? {id body : Nat} (h : tree.opens? id = some body) :
    id < tree.size ∧ body < tree.size := by
  have hid : id < tree.size := lt_size_of_label fun hroot => by simp [opens?, hroot] at h
  refine ⟨hid, ?_⟩
  unfold opens? at h
  split at h
  · obtain rfl := Option.some.inj h
    exact hid
  · rename_i hlabel
    rw [target?, hlabel] at h
    exact Nat.lt_trans (lt_of_mem_ancestors (List.mem_of_find?_eq_some h)) hid
  · cases h

/-- The node after a node of a closed tree is in the tree. -/
theorem Closed.lt_size_of_next? (closed : tree.Closed) {id next : Nat}
    (h : tree.next? id = some next) : next < tree.size :=
  closed.below id next (List.mem_append_right _ (List.mem_of_mem_head? h))

/-- The first node of an alternative of a closed tree is in the tree. -/
theorem Closed.lt_size_of_mem_body (closed : tree.Closed) {id alternative : Nat}
    (h : alternative ∈ tree.body id) : alternative < tree.size :=
  closed.below id alternative (List.mem_append_left _ h)

end Tree

/-! ## Numbers of occurrences -/

namespace Walk

variable {tree : Tree}

/-- The number of occurrences that a node counts. -/
def counted (node : Node) : Nat :=
  match node.label.repeats with
  | .times limit => limit.toNat
  | _ => 0

/-- The longest repetition is found by going through the numbers that the nodes count. -/
theorem longestRepeat_eq (tree : Tree) : longestRepeat tree =
    tree.nodes.toList.foldl (fun longest node => max longest (counted node)) 1 := by
  rw [longestRepeat, ← Array.foldl_toList]
  congr 1
  funext longest node
  unfold counted
  cases node.label.repeats <;> simp

/-- No node of the tree counts more occurrences than the longest repetition, which is at least one. -/
theorem counted_le_longestRepeat (tree : Tree) :
    1 ≤ longestRepeat tree ∧ ∀ node ∈ tree.nodes.toList, counted node ≤ longestRepeat tree := by
  have hfold : ∀ (nodes : List Node) (longest : Nat),
      longest ≤ nodes.foldl (fun longest node => max longest (counted node)) longest ∧
        ∀ node ∈ nodes,
          counted node ≤ nodes.foldl (fun longest node => max longest (counted node)) longest := by
    intro nodes
    induction nodes with
    | nil => exact fun longest => ⟨Nat.le_refl _, fun _ h => by cases h⟩
    | cons first rest ih =>
      intro longest
      obtain ⟨hbase, hrest⟩ := ih (max longest (counted first))
      refine ⟨Nat.le_trans (Nat.le_max_left _ _) hbase, fun node hnode => ?_⟩
      rcases List.mem_cons.1 hnode with rfl | hnode
      · exact Nat.le_trans (Nat.le_max_right _ _) hbase
      · exact hrest node hnode
  rw [longestRepeat_eq]
  exact hfold _ 1

/-- A limit on the occurrences of a node is at most the longest repetition. -/
theorem limit_le_longestRepeat {id : Nat} {limit : UInt32}
    (h : (tree.label id).repeats = .times limit) : limit.toNat ≤ longestRepeat tree := by
  cases hnode : tree.node? id with
  | none => simp [Tree.label, hnode, Label.repeats] at h
  | some node =>
    have hlabel : tree.label id = node.label := (Tree.node_facts hnode).1
    have hmem : node ∈ tree.nodes.toList :=
      Array.mem_toList_iff.2 (Array.mem_of_getElem? hnode)
    have hle := (counted_le_longestRepeat tree).2 node hmem
    rw [counted, ← hlabel, h] at hle
    exact hle

end Walk

/-- The numbers of a frame are within the tree. -/
structure Frame.Fits (tree : Tree) (frame : Frame) : Prop where
  body : frame.body < tree.size
  origin : frame.origin < tree.size
  positive : 1 ≤ frame.iteration
  counted : frame.iteration ≤ Walk.longestRepeat tree

namespace Frame

variable {tree : Tree}

/-- The first frame of a rule that is entered. -/
theorem Fits.first {node body : Nat} (h : tree.opens? node = some body) :
    Frame.Fits tree ⟨body, node, 1⟩ where
  body := (Tree.lt_size_of_opens? h).2
  origin := (Tree.lt_size_of_opens? h).1
  positive := Nat.le_refl _
  counted := (Walk.counted_le_longestRepeat tree).1

/-- The next occurrence is opened at the same node and has the same definitions. -/
theorem following_same (frame : Frame) (repeats : Repeat) :
    (frame.following repeats).origin = frame.origin ∧
      (frame.following repeats).body = frame.body := by
  cases repeats <;> exact ⟨rfl, rfl⟩

/-- The frame of an occurrence that is allowed. -/
theorem Fits.following {frame : Frame} (fits : frame.Fits tree)
    (allows : (tree.label frame.origin).repeats.allowsAnother frame.iteration = true) :
    (frame.following (tree.label frame.origin).repeats).Fits tree := by
  obtain ⟨horigin, hbody⟩ := frame.following_same (tree.label frame.origin).repeats
  refine ⟨hbody.trans_lt fits.body, horigin.trans_lt fits.origin, ?_, ?_⟩
  · have hpositive := fits.positive
    cases (tree.label frame.origin).repeats <;> simp only [Frame.following] <;> omega
  · cases hrepeats : (tree.label frame.origin).repeats with
    | once => simp [hrepeats, Repeat.allowsAnother] at allows
    | times limit =>
      have hlimit := Walk.limit_le_longestRepeat hrepeats
      simp only [hrepeats, Repeat.allowsAnother, decide_eq_true_eq] at allows
      simp only [Frame.following]
      omega
    | unbounded => exact fits.counted

end Frame

/-! ## Tables of nestings -/

/-- A table of nestings refers to itself and to the tree only. -/
structure Nesting.Table (tree : Tree) (nestings : Std.TreeMap Nat Nesting) (next : Nat) : Prop where
  below : ∀ number ∈ nestings, number < next
  frame : ∀ (number : Nat) (nesting : Nesting), nestings[number]? = some nesting →
    nesting.frame.Fits tree
  distinct : ∀ (number : Nat) (nesting : Nesting), nestings[number]? = some nesting →
    nesting.parents.Nodup
  present : ∀ (number : Nat) (nesting : Nesting), nestings[number]? = some nesting →
    ∀ parent ∈ nesting.parents, Nesting.Present nestings parent
  depth : ∀ (number : Nat) (nesting : Nesting), nestings[number]? = some nesting →
    ∀ parent ∈ nesting.parents, nesting.depth =
      Nesting.depthIn nestings parent + if (tree.label nesting.frame.origin).isBackEdge then 1 else 0
  /-- Below every nesting there is an older one, or none. -/
  founded : ∀ (number : Nat) (nesting : Nesting), nestings[number]? = some nesting →
    ∃ parent ∈ nesting.parents, ∀ below, parent = some below → below < number

/-- There is a table without any nesting. -/
theorem Nesting.table_empty (tree : Tree) : Nesting.Table tree ∅ 0 := by
  constructor <;> simp

/-- The item is at a node of the tree, in a nesting of the table. -/
structure Item.Fits (tree : Tree) (nestings : Std.TreeMap Nat Nesting) (item : Item) : Prop where
  node : item.node < tree.size
  present : Nesting.Present nestings item.nesting

/-- The task is about nodes of the tree and nestings of the walk. -/
def Task.Fits (tree : Tree) (walk : Walk) : Task → Prop
  | .enter item => item.Fits tree walk.nestings
  | .descend frame parent => frame.Fits tree ∧ Nesting.Present walk.nestings parent
  | .advance item => item.Fits tree walk.nestings
  | .resume number parent => number ∈ walk.finished ∧ parent ∈ walk.parents number

/-- Everything in the tables and on the agenda refers to the tree and to the table of nestings. -/
structure Walk.Tidy (tree : Tree) (walk : Walk) (agenda : List Task) : Prop where
  table : Nesting.Table tree walk.nestings walk.nextNesting
  opened : ∀ (level : Level) (number : Nat), walk.opened[level]? = some number →
    level.depth ≤ tree.maxDepth ∧
      ∃ nesting : Nesting, walk.nestings[number]? = some nesting ∧ nesting.toLevel = level
  entered : ∀ item ∈ walk.entered, item.Fits tree walk.nestings
  finished : ∀ number ∈ walk.finished, number ∈ walk.nestings
  found : ∀ item ∈ walk.found, item ∈ walk.entered ∧ (tree.label item.node).isMethod = true
  agenda : ∀ task ∈ agenda, task.Fits tree walk

namespace Walk

variable {tree : Tree} {walk after : Walk} {task : Task} {agenda rest led : List Task}

/-- The depth of a nesting of a walk is read off its table. -/
theorem depth_eq_depthIn (walk : Walk) (nesting : Option Nat) :
    walk.depth nesting = Nesting.depthIn walk.nestings nesting := by
  cases nesting <;> rfl

/-- A nesting of the table does not have the next number. -/
theorem Tidy.ne_nextNesting (tidy : walk.Tidy tree agenda) {number : Nat} (present : number ∈ walk.nestings) :
    number ≠ walk.nextNesting :=
  (tidy.table.below number present).ne

/-- The next number is a new one. -/
theorem Tidy.fresh (tidy : walk.Tidy tree agenda) : walk.nestings[walk.nextNesting]? = none := by
  by_contra h
  have hmem : walk.nextNesting ∈ walk.nestings := by
    rw [Std.TreeMap.mem_iff_isSome_getElem?, Option.isSome_iff_ne_none]
    exact h
  exact tidy.ne_nextNesting hmem rfl

/-- The nesting of a present number is found. -/
theorem exists_of_mem {nestings : Std.TreeMap Nat Nesting} {number : Nat} (h : number ∈ nestings) :
    ∃ nesting, nestings[number]? = some nesting :=
  Option.isSome_iff_exists.1 (Std.TreeMap.mem_iff_isSome_getElem?.1 h)

/-- The number of a nesting that is found is present. -/
theorem mem_of_getElem? {nestings : Std.TreeMap Nat Nesting} {number : Nat} {nesting : Nesting}
    (h : nestings[number]? = some nesting) : number ∈ nestings := by
  rw [Std.TreeMap.mem_iff_isSome_getElem?, h]
  rfl

/-- A nesting is opened at one level only. -/
theorem Tidy.level_unique (tidy : walk.Tidy tree agenda) {level other : Level} {number : Nat}
    (hlevel : walk.opened[level]? = some number) (hother : walk.opened[other]? = some number) :
    level = other := by
  obtain ⟨_, nesting, found, rfl⟩ := tidy.opened level number hlevel
  obtain ⟨_, nesting', found', rfl⟩ := tidy.opened other number hother
  rw [Option.some.inj (found.symm.trans found')]

/-- With the first tasks done a walk stays tidy. -/
theorem Tidy.tail (tidy : walk.Tidy tree (led ++ rest)) : walk.Tidy tree rest :=
  { tidy with agenda := fun other hother => tidy.agenda other (List.mem_append_right _ hother) }

/-- What fits into a walk fits into a later one. -/
theorem Extends.fits (h : walk.Extends after) (fits : task.Fits tree walk) :
    task.Fits tree after := by
  cases task with
  | enter item => exact ⟨fits.node, h.present fits.present⟩
  | descend frame parent => exact ⟨fits.1, h.present fits.2⟩
  | advance item => exact ⟨fits.node, h.present fits.present⟩
  | resume number parent => exact ⟨h.finished _ fits.1, h.mem_parents fits.2⟩

/-- A table with one more nesting. -/
theorem Tidy.table_openNesting (tidy : walk.Tidy tree agenda) {frame : Frame} {parent : Option Nat}
    (fits : frame.Fits tree) (present : Nesting.Present walk.nestings parent)
    (extends_ : walk.Extends (walk.openNesting (walk.levelOn tree frame parent) parent)) :
    Nesting.Table tree (walk.openNesting (walk.levelOn tree frame parent) parent).nestings
      (walk.nextNesting + 1) := by
  have hcases : ∀ (number : Nat) (nesting : Nesting),
      (walk.openNesting (walk.levelOn tree frame parent) parent).nestings[number]? = some nesting →
      number = walk.nextNesting ∧ nesting = ⟨walk.levelOn tree frame parent, [parent]⟩ ∨
        walk.nestings[number]? = some nesting := by
    intro number nesting h
    rw [getElem?_openNesting] at h
    split at h
    · rename_i hnumber
      exact .inl ⟨hnumber, (Option.some.inj h).symm⟩
    · exact .inr h
  refine ⟨fun number hmem => ?_, fun number nesting h => ?_, fun number nesting h => ?_,
    fun number nesting h => ?_, fun number nesting h => ?_, fun number nesting h => ?_⟩
  · obtain ⟨nesting, h⟩ := exists_of_mem hmem
    rcases hcases number nesting h with ⟨rfl, _⟩ | h
    · exact Nat.lt_succ_self _
    · exact Nat.lt_succ_of_lt (tidy.table.below number (mem_of_getElem? h))
  · rcases hcases number nesting h with ⟨_, rfl⟩ | h
    · exact fits
    · exact tidy.table.frame number nesting h
  · rcases hcases number nesting h with ⟨_, rfl⟩ | h
    · exact List.nodup_singleton _
    · exact tidy.table.distinct number nesting h
  · rcases hcases number nesting h with ⟨_, rfl⟩ | h
    · intro other hother
      obtain rfl := List.mem_singleton.1 hother
      exact extends_.present present
    · exact fun other hother => extends_.present (tidy.table.present number nesting h other hother)
  · rcases hcases number nesting h with ⟨_, rfl⟩ | h
    · intro other hother
      obtain rfl := List.mem_singleton.1 hother
      rw [extends_.depthIn_eq present, ← depth_eq_depthIn]
      rfl
    · intro other hother
      rw [extends_.depthIn_eq (tidy.table.present number nesting h other hother)]
      exact tidy.table.depth number nesting h other hother
  · rcases hcases number nesting h with ⟨rfl, rfl⟩ | h
    · exact ⟨parent, List.mem_singleton_self _, fun below hbelow =>
        tidy.table.below below (present below hbelow)⟩
    · exact tidy.table.founded number nesting h

/-- A table in which a nesting has got a further parent of the right depth. -/
theorem Tidy.table_addParent (tidy : walk.Tidy tree agenda) {frame : Frame} {parent : Option Nat}
    {added : Nat} (present : Nesting.Present walk.nestings parent)
    (isOpen : walk.opened[walk.levelOn tree frame parent]? = some added)
    (fresh : parent ∉ walk.parents added) (extends_ : walk.Extends (walk.addParent added parent)) :
    Nesting.Table tree (walk.addParent added parent).nestings walk.nextNesting := by
  have hmem : ∀ {number : Nat} {nesting earlier : Nesting},
      (walk.addParent added parent).nestings[number]? = some nesting →
      walk.nestings[number]? = some earlier → ∀ other ∈ nesting.parents,
        other ∈ earlier.parents ∨ number = added ∧ other = parent := by
    intro number nesting earlier h hearlier other hother
    rw [← parents_of_getElem? h] at hother
    rw [← parents_of_getElem? hearlier]
    exact mem_parents_of_addParent hother
  have hadded : ∀ nesting : Nesting, walk.nestings[added]? = some nesting →
      nesting.toLevel = walk.levelOn tree frame parent ∧ parent ∉ nesting.parents := by
    intro nesting h
    obtain ⟨_, other, hother, hlevel⟩ := tidy.opened _ _ isOpen
    obtain rfl := Option.some.inj (h.symm.trans hother)
    exact ⟨hlevel, parents_of_getElem? h ▸ fresh⟩
  refine ⟨fun number hmem => ?_, fun number nesting h => ?_, fun number nesting h => ?_,
    fun number nesting h other hother => ?_, fun number nesting h other hother => ?_,
    fun number nesting h => ?_⟩
  · obtain ⟨nesting, h⟩ := exists_of_mem hmem
    obtain ⟨earlier, hearlier, _⟩ := earlier_of_addParent h
    exact tidy.table.below number (mem_of_getElem? hearlier)
  · obtain ⟨earlier, hearlier, hlevel, _⟩ := earlier_of_addParent h
    rw [hlevel]
    exact tidy.table.frame number earlier hearlier
  · obtain ⟨earlier, hearlier, _, hparents | ⟨rfl, hparents⟩⟩ := earlier_of_addParent h
    · rw [hparents]
      exact tidy.table.distinct number earlier hearlier
    · rw [hparents, List.nodup_append]
      refine ⟨tidy.table.distinct number earlier hearlier, List.nodup_singleton _, ?_⟩
      rintro first hfirst second hsecond rfl
      obtain rfl := List.mem_singleton.1 hsecond
      exact (hadded earlier hearlier).2 hfirst
  · obtain ⟨earlier, hearlier, _⟩ := earlier_of_addParent h
    rcases hmem h hearlier other hother with hother | ⟨_, rfl⟩
    · exact extends_.present (tidy.table.present number earlier hearlier other hother)
    · exact extends_.present present
  · obtain ⟨earlier, hearlier, hlevel, _⟩ := earlier_of_addParent h
    rw [hlevel]
    rcases hmem h hearlier other hother with hother | ⟨rfl, rfl⟩
    · rw [extends_.depthIn_eq (tidy.table.present number earlier hearlier other hother)]
      exact tidy.table.depth number earlier hearlier other hother
    · rw [extends_.depthIn_eq present, (hadded earlier hearlier).1, ← depth_eq_depthIn]
      rfl
  · obtain ⟨earlier, hearlier, _, hparents⟩ := earlier_of_addParent h
    obtain ⟨oldest, holdest, hless⟩ := tidy.table.founded number earlier hearlier
    refine ⟨oldest, ?_, hless⟩
    rcases hparents with hparents | ⟨_, hparents⟩ <;> simp [hparents, holdest]

/-! ## What a step does to the tables -/

/-- The table of nestings after a step. -/
theorem Tidy.table_step (tidy : walk.Tidy tree (task :: rest)) (h : Handles tree walk task after led) :
    Nesting.Table tree after.nestings after.nextNesting := by
  have extends_ := h.extends tidy.fresh
  have htask : task.Fits tree walk := tidy.agenda task List.mem_cons_self
  cases h with
  | opens => exact tidy.table_openNesting htask.1 htask.2 extends_
  | joins _ isOpen fresh => exact tidy.table_addParent htask.2 isOpen fresh extends_
  | _ => exact tidy.table

/-- The levels after a step are those of nestings. -/
theorem Tidy.opened_step (tidy : walk.Tidy tree (task :: rest)) (h : Handles tree walk task after led)
    {level : Level} {number : Nat} (found : after.opened[level]? = some number) :
    level.depth ≤ tree.maxDepth ∧
      ∃ nesting : Nesting, after.nestings[number]? = some nesting ∧ nesting.toLevel = level := by
  have extends_ := h.extends tidy.fresh
  have hearlier : walk.opened[level]? = some number → level.depth ≤ tree.maxDepth ∧
      ∃ nesting : Nesting, after.nestings[number]? = some nesting ∧ nesting.toLevel = level := by
    intro hlevel
    obtain ⟨hwithin, nesting, hnesting, rfl⟩ := tidy.opened level number hlevel
    obtain ⟨later, hlater, hsame, _⟩ := extends_.nestings number nesting hnesting
    exact ⟨hwithin, later, hlater, hsame⟩
  cases h with
  | opens within =>
    rw [opened_openNesting] at found
    split at found
    · rename_i hsame
      obtain rfl := Option.some.inj found
      obtain rfl := hsame
      exact ⟨within, _, (getElem?_openNesting _ _ _).trans (if_pos rfl), rfl⟩
    · exact hearlier found
  | _ => exact hearlier found

/-- The items entered after a step fit. -/
theorem Tidy.entered_step (tidy : walk.Tidy tree (task :: rest)) (h : Handles tree walk task after led)
    {item : Item} (hitem : item ∈ after.entered) : item.Fits tree after.nestings := by
  have extends_ := h.extends tidy.fresh
  have htask : task.Fits tree walk := tidy.agenda task List.mem_cons_self
  have hearlier : item ∈ walk.entered → item.Fits tree after.nestings := fun hitem =>
    ⟨(tidy.entered item hitem).node, extends_.present (tidy.entered item hitem).present⟩
  cases h with
  | sees =>
    rcases (mem_entered_see _ item).1 hitem with rfl | hitem
    · exact htask
    · exact hearlier hitem
  | _ => exact hearlier hitem

/-- The nestings finished after a step are in the table. -/
theorem Tidy.finished_step (tidy : walk.Tidy tree (task :: rest)) (h : Handles tree walk task after led)
    {number : Nat} (hnumber : number ∈ after.finished) : number ∈ after.nestings := by
  have extends_ := h.extends tidy.fresh
  have htask : task.Fits tree walk := tidy.agenda task List.mem_cons_self
  have hearlier : number ∈ walk.finished → number ∈ after.nestings := fun hnumber =>
    have present : Nesting.Present walk.nestings (some number) := fun other hother =>
      Option.some.inj hother ▸ tidy.finished number hnumber
    extends_.present present number rfl
  cases h with
  | finishes =>
    rcases (mem_finished_finish _ number).1 hnumber with rfl | hnumber
    · exact htask.present number rfl
    · exact hearlier hnumber
  | _ => exact hearlier hnumber

/-- The items found after a step are methods that have been entered. -/
theorem Tidy.found_step (tidy : walk.Tidy tree (task :: rest)) (h : Handles tree walk task after led)
    {item : Item} (hitem : item ∈ after.found) :
    item ∈ after.entered ∧ (tree.label item.node).isMethod = true := by
  cases h with
  | sees =>
    rw [mem_entered_see]
    simp only [see] at hitem
    split at hitem
    · rename_i hmethod
      rcases Array.mem_push.1 hitem with hitem | rfl
      · exact ⟨.inr (tidy.found item hitem).1, (tidy.found item hitem).2⟩
      · exact ⟨.inl rfl, hmethod⟩
    · exact ⟨.inr (tidy.found item hitem).1, (tidy.found item hitem).2⟩
  | _ => exact tidy.found item hitem

/-- The alternatives of a frame fit on top of a nesting. -/
theorem fits_alternatives (closed : tree.Closed) {frame : Frame} {number : Nat}
    (hnumber : number ∈ walk.nestings) :
    ∀ other ∈ alternatives tree frame number, other.Fits tree walk := by
  intro other hother
  obtain ⟨node, hnode, rfl⟩ := List.mem_map.1 hother
  exact ⟨closed.lt_size_of_mem_body hnode, fun other hother => Option.some.inj hother ▸ hnumber⟩

/-- The tasks that a step leads to fit. -/
theorem Tidy.fits_led (closed : tree.Closed) (tidy : walk.Tidy tree (task :: rest))
    (h : Handles tree walk task after led) : ∀ other ∈ led, other.Fits tree after := by
  have extends_ := h.extends tidy.fresh
  have htask : task.Fits tree walk := tidy.agenda task List.mem_cons_self
  intro other hother
  cases h with
  | known | tooDeep | ended | lost | completes => cases hother
  | sees =>
    rcases List.mem_append.1 hother with hother | hother
    · obtain ⟨body, hbody, rfl⟩ := Option.map_eq_some_iff.1 (Option.mem_toList.1 hother)
      exact ⟨.first hbody, htask.present⟩
    · split at hother
      · obtain rfl := List.mem_singleton.1 hother
        exact htask
      · cases hother
  | opens =>
    exact fits_alternatives closed
      (mem_of_getElem? ((getElem?_openNesting _ _ _).trans (if_pos rfl))) other hother
  | shares _ isOpen =>
    obtain ⟨_, nesting, found, _⟩ := tidy.opened _ _ isOpen
    exact fits_alternatives closed (mem_of_getElem? found) other hother
  | joins _ isOpen =>
    obtain ⟨_, nesting, found, _⟩ := tidy.opened _ _ isOpen
    have hpresent := mem_of_getElem? found
    rcases List.mem_append.1 hother with hother | hother
    · split at hother
      · rename_i hdone
        obtain rfl := List.mem_singleton.1 hother
        exact ⟨hdone, mem_parents_addParent hpresent _⟩
      · cases hother
    · obtain ⟨later, hlater, _⟩ := extends_.nestings _ nesting found
      exact fits_alternatives closed (mem_of_getElem? hlater) other hother
  | goesOn found =>
    obtain rfl := List.mem_singleton.1 hother
    exact ⟨closed.lt_size_of_next? found, htask.present⟩
  | @finishes node number =>
    obtain ⟨parent, hparent, rfl⟩ := List.mem_map.1 hother
    exact ⟨(mem_finished_finish number number).2 (.inl rfl), hparent⟩
  | @resumes number parent nesting found =>
    have hparent : parent ∈ nesting.parents := parents_of_getElem? found ▸ htask.2
    have hpresent := tidy.table.present number nesting found parent hparent
    have hframe := tidy.table.frame number nesting found
    rcases List.mem_append.1 hother with hother | hother
    · split at hother
      · rename_i hallows
        obtain rfl := List.mem_singleton.1 hother
        exact ⟨hframe.following hallows, hpresent⟩
      · cases hother
    · obtain rfl := List.mem_singleton.1 hother
      exact ⟨hframe.origin, hpresent⟩

/-- Handling a task leaves a walk tidy. -/
theorem Tidy.step (closed : tree.Closed) (tidy : walk.Tidy tree (task :: rest))
    (h : Handles tree walk task after led) : after.Tidy tree (led ++ rest) where
  table := tidy.table_step h
  opened _ _ := tidy.opened_step h
  entered _ := tidy.entered_step h
  finished _ := tidy.finished_step h
  found _ := tidy.found_step h
  agenda other hother := by
    rcases List.mem_append.1 hother with hother | hother
    · exact tidy.fits_led closed h other hother
    · exact (h.extends tidy.fresh).fits (tidy.agenda other (List.mem_cons_of_mem _ hother))

end Walk

end ChainGrammar
