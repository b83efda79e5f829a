import ChainGrammar.Proofs.Position.Range
import Mathlib.Algebra.GroupWithZero.Nat

/-!
# How many nestings one walk opens

A walk opens a nesting for each level that it comes to, and a level is a frame at a depth.  Every frame is an
occurrence of a rule at the node that opened it (`Frame.IsOccurrence`), the rule is determined by the node, and
only where a reference limits the number of occurrences do frames of one node differ in their number.  A walk
therefore opens no more nestings than the nodes have occurrences, at each depth (`Chain.expansions_bounded`).

The occurrences of a limited reference do count: a rule that may be empty is entered once for each of
them on a single walk (`partsRules`).
-/

set_option autoImplicit false

namespace ChainGrammar

/-- How many occurrences in a row are told apart: all where their number is limited, and otherwise one. -/
def Repeat.occurrences : Repeat → Nat
  | .times limit => max 1 limit.toNat
  | _ => 1

theorem Repeat.one_le_occurrences (repeats : Repeat) : 1 ≤ repeats.occurrences := by
  cases repeats with
  | times limit => exact Nat.le_max_left _ _
  | once | unbounded => exact Nat.le_refl 1

/-- Another occurrence is one of those that are told apart. -/
theorem Repeat.lt_occurrences {repeats : Repeat} {iteration : Nat} (limited : repeats ≠ .unbounded)
    (allows : repeats.allowsAnother iteration = true) : iteration < repeats.occurrences := by
  cases repeats with
  | once => cases allows
  | times limit =>
    simp only [Repeat.allowsAnother, decide_eq_true_eq] at allows
    exact Nat.lt_of_lt_of_le allows (Nat.le_max_right _ _)
  | unbounded => exact absurd rfl limited

/-- Is it a node at which a rule is entered? -/
def Label.isOpener : Label → Bool
  | .rule .. => true
  | .backEdge .. => true
  | _ => false

namespace Tree

variable {tree : Tree}

/-- The nodes at which rules are entered: the unfolded rules and the back-edges. -/
def openers (tree : Tree) : List Nat :=
  (List.range tree.size).filter fun id => (tree.label id).isOpener

/-- How many occurrences there are at the nodes of a tree. -/
def occurrenceCount (tree : Tree) : Nat :=
  (tree.openers.map fun id => (tree.label id).repeats.occurrences).sum

/-- The frames of all occurrences. -/
def frames (tree : Tree) : List Frame :=
  tree.openers.flatMap fun id =>
    (List.range' 1 (tree.label id).repeats.occurrences).map fun iteration =>
      ⟨(tree.opens? id).getD 0, id, iteration⟩

theorem length_frames (tree : Tree) : tree.frames.length = tree.occurrenceCount := by
  rw [frames, occurrenceCount, List.length_flatMap]
  simp only [List.length_map, List.length_range']

/-- Where no number of occurrences is limited there is one occurrence for each node. -/
theorem occurrenceCount_eq (unlimited : ∀ id ∈ tree.openers, ∀ limit,
    (tree.label id).repeats ≠ .times limit) : tree.occurrenceCount = tree.openers.length := by
  have hone : ∀ id ∈ tree.openers, (tree.label id).repeats.occurrences = 1 := by
    intro id hid
    cases hrepeats : (tree.label id).repeats with
    | once => rfl
    | times limit => exact absurd hrepeats (unlimited id hid limit)
    | unbounded => rfl
  rw [occurrenceCount, List.map_congr_left hone, List.map_const', List.sum_replicate_nat,
    Nat.mul_one]

/-- Where a rule is entered there is a node that enters rules. -/
theorem mem_openers_of_opens? {id body : Nat} (h : tree.opens? id = some body) : id ∈ tree.openers := by
  refine List.mem_filter.2 ⟨List.mem_range.2 (lt_size_of_opens? h).1, ?_⟩
  unfold opens? at h
  split at h
  · rename_i hlabel
    rw [hlabel]
    rfl
  · rename_i hlabel
    rw [hlabel]
    rfl
  · cases h

end Tree

/-- The frame is one of the occurrences at the node that opened it. -/
structure Frame.IsOccurrence (tree : Tree) (frame : Frame) : Prop where
  opens : tree.opens? frame.origin = some frame.body
  positive : 1 ≤ frame.iteration
  counted : frame.iteration ≤ (tree.label frame.origin).repeats.occurrences

namespace Frame.IsOccurrence

variable {tree : Tree} {frame : Frame}

theorem first {node body : Nat} (h : tree.opens? node = some body) :
    IsOccurrence tree ⟨body, node, 1⟩ where
  opens := h
  positive := Nat.le_refl 1
  counted := (tree.label node).repeats.one_le_occurrences

/-- The frame after an occurrence that another one may follow. -/
theorem following (h : frame.IsOccurrence tree)
    (allows : (tree.label frame.origin).repeats.allowsAnother frame.iteration = true) :
    (frame.following (tree.label frame.origin).repeats).IsOccurrence tree := by
  obtain ⟨hopens, hpositive, hcounted⟩ := h
  obtain ⟨horigin, hbody⟩ := frame.following_same (tree.label frame.origin).repeats
  refine ⟨by rw [horigin, hbody, hopens], ?_, ?_⟩
  · cases (tree.label frame.origin).repeats <;> simp only [Frame.following] <;> omega
  · rw [horigin]
    cases hrepeats : (tree.label frame.origin).repeats with
    | once => simp [hrepeats, Repeat.allowsAnother] at allows
    | times limit =>
      simp only [hrepeats, Repeat.allowsAnother, decide_eq_true_eq] at allows
      simp only [Frame.following, Repeat.occurrences]
      omega
    | unbounded =>
      rw [hrepeats] at hcounted
      exact hcounted

theorem mem_frames (h : frame.IsOccurrence tree) : frame ∈ tree.frames := by
  refine List.mem_flatMap.2 ⟨frame.origin, Tree.mem_openers_of_opens? h.opens, ?_⟩
  refine List.mem_map.2 ⟨frame.iteration, ?_, ?_⟩
  · have hpositive := h.positive
    have hcounted := h.counted
    rw [List.mem_range'_1]
    omega
  · rw [h.opens, Option.getD_some]

end Frame.IsOccurrence

/-- The frames of a table of nestings are occurrences. -/
def Nesting.Counted (tree : Tree) (nestings : Std.TreeMap Nat Nesting) : Prop :=
  ∀ (number : Nat) (nesting : Nesting), nestings[number]? = some nesting →
    nesting.frame.IsOccurrence tree

namespace Walk

variable {tree : Tree} {walk after first : Walk} {task : Task} {agenda rest led : List Task}

/-- The frames that are open or are to be opened are occurrences. -/
structure Counts (tree : Tree) (walk : Walk) (agenda : List Task) : Prop where
  nestings : Nesting.Counted tree walk.nestings
  agenda : ∀ frame parent, .descend frame parent ∈ agenda → frame.IsOccurrence tree

/-- The nestings after a step are of occurrences. -/
theorem Counts.nestings_step (counts : walk.Counts tree (task :: rest))
    (h : Handles tree walk task after led) : Nesting.Counted tree after.nestings := by
  intro number nesting found
  cases h with
  | opens =>
    rw [getElem?_openNesting] at found
    split at found
    · obtain rfl := Option.some.inj found
      exact counts.agenda _ _ List.mem_cons_self
    · exact counts.nestings number nesting found
  | joins =>
    obtain ⟨earlier, hearlier, hlevel, _⟩ := earlier_of_addParent found
    have hframe : nesting.frame = earlier.frame := congrArg Level.frame hlevel
    rw [hframe]
    exact counts.nestings number earlier hearlier
  | _ => exact counts.nestings number nesting found

/-- The frames that a step leads to are occurrences. -/
theorem Counts.led_step (counts : walk.Counts tree (task :: rest))
    (h : Handles tree walk task after led) {frame : Frame} {parent : Option Nat}
    (hmem : .descend frame parent ∈ led) : frame.IsOccurrence tree := by
  -- frames are opened where an item is entered and where another occurrence follows
  cases h with
  | @sees item =>
    rcases List.mem_append.1 hmem with hmem | hmem
    · obtain ⟨body, hbody, heq⟩ := Option.map_eq_some_iff.1 (Option.mem_toList.1 hmem)
      obtain ⟨rfl, rfl⟩ := Task.descend.inj heq
      exact .first hbody
    · split at hmem
      · cases List.mem_singleton.1 hmem
      · cases hmem
  | opens | shares =>
    obtain ⟨node, _, heq⟩ := List.mem_map.1 hmem
    cases heq
  | joins =>
    rcases List.mem_append.1 hmem with hmem | hmem
    · split at hmem
      · cases List.mem_singleton.1 hmem
      · cases hmem
    · obtain ⟨node, _, heq⟩ := List.mem_map.1 hmem
      cases heq
  | finishes =>
    obtain ⟨parent, _, heq⟩ := List.mem_map.1 hmem
    cases heq
  | resumes found =>
    rcases List.mem_append.1 hmem with hmem | hmem
    · split at hmem
      · rename_i allows
        obtain ⟨rfl, rfl⟩ := Task.descend.inj (List.mem_singleton.1 hmem)
        exact (counts.nestings _ _ found).following allows
      · cases hmem
    · cases List.mem_singleton.1 hmem
  | goesOn => cases List.mem_singleton.1 hmem
  | known | tooDeep | completes | ended | lost => cases hmem

/-- A step opens occurrences only. -/
theorem Counts.step (counts : walk.Counts tree (task :: rest)) (h : Handles tree walk task after led) :
    after.Counts tree (led ++ rest) where
  nestings := counts.nestings_step h
  agenda frame parent hmem := by
    rcases List.mem_append.1 hmem with hmem | hmem
    · exact counts.led_step h hmem
    · exact counts.agenda frame parent (List.mem_cons_of_mem _ hmem)

/-- A walk opens occurrences only. -/
theorem Counts.run (counts : first.Counts tree agenda) :
    Nesting.Counted tree (first.run tree agenda).nestings :=
  (runFor_keeps (P := fun walk left => walk.Counts tree left)
    (fun _ _ _ _ _ counts handles => counts.step handles) _ first agenda counts).nestings

/-- The levels at which the frames of all occurrences can stand. -/
def occurrenceLevels (tree : Tree) : List Level :=
  tree.frames.flatMap fun frame => (List.range (tree.maxDepth + 1)).map fun depth => ⟨frame, depth⟩

theorem length_occurrenceLevels (tree : Tree) :
    (occurrenceLevels tree).length = tree.occurrenceCount * (tree.maxDepth + 1) := by
  rw [occurrenceLevels, List.length_flatMap]
  simp only [List.length_map, List.length_range]
  rw [List.map_const', List.sum_replicate_nat, Tree.length_frames]

theorem mem_occurrenceLevels {level : Level} (h : level.frame.IsOccurrence tree)
    (within : level.depth ≤ tree.maxDepth) : level ∈ occurrenceLevels tree :=
  List.mem_flatMap.2 ⟨level.frame, h.mem_frames,
    List.mem_map.2 ⟨level.depth, List.mem_range.2 (Nat.lt_succ_of_le within), rfl⟩⟩

end Walk

/-- The nestings of a position that have not been carried over to it. -/
def Position.added (position : Position) (carried : Std.TreeMap Nat Nesting) : List Nat :=
  position.nestings.keys.filter fun number => !carried.contains number

namespace Walk

variable {tree : Tree} {first : Walk} {agenda : List Task}

/-- A walk that sets out from nestings of occurrences opens no more nestings than there are levels of
occurrences. -/
theorem SetsOut.length_added_le (closed : tree.Closed) (sets : SetsOut tree first agenda)
    (counted : Nesting.Counted tree first.nestings) :
    ((first.run tree agenda).position.added first.nestings).length ≤
      tree.occurrenceCount * (tree.maxDepth + 1) := by
  have counts : first.Counts tree agenda := by
    refine ⟨counted, fun frame parent hmem => ?_⟩
    obtain ⟨item, _, heq | heq⟩ := sets.items _ hmem
    · cases heq
    · cases heq
  obtain ⟨tidy, sound, _⟩ := sets.run closed
  have counted' := counts.run
  generalize first.run tree agenda = last at tidy sound counted' ⊢
  -- each new nesting is the one that was opened at its level
  have hsubset : last.position.added first.nestings ⊆
      (occurrenceLevels tree).filterMap fun level => last.opened[level]? := by
    intro number hnumber
    obtain ⟨hkey, hnew⟩ := List.mem_filter.1 hnumber
    obtain ⟨nesting, found⟩ := exists_of_mem (Std.TreeMap.mem_keys.1 hkey)
    have hmissing : first.nestings[number]? = none := by
      rw [Bool.not_eq_true', ← Bool.not_eq_true, ← Std.TreeMap.mem_iff_contains] at hnew
      exact Std.TreeMap.getElem?_eq_none hnew
    have hopened := sound.new number nesting found hmissing
    refine List.mem_filterMap.2 ⟨nesting.toLevel, ?_, hopened⟩
    obtain ⟨within, _⟩ := tidy.opened nesting.toLevel number hopened
    exact mem_occurrenceLevels (counted' number nesting found) within
  have hnodup : (last.position.added first.nestings).Nodup := Std.TreeMap.nodup_keys.filter _
  calc (last.position.added first.nestings).length
      ≤ ((occurrenceLevels tree).filterMap fun level => last.opened[level]?).length :=
        (List.subperm_of_subset hnodup hsubset).length_le
    _ ≤ (occurrenceLevels tree).length := List.length_filterMap_le _ _
    _ = tree.occurrenceCount * (tree.maxDepth + 1) := length_occurrenceLevels tree

end Walk

namespace Position

variable {tree : Tree} {position : Position}

theorem counted_start (tree : Tree) (entry : Nat) : Nesting.Counted tree (start tree entry).nestings := by
  refine Walk.Counts.run ⟨fun number nesting found => ?_, fun frame parent hmem => ?_⟩
  · simp at found
  · cases List.mem_singleton.1 hmem

theorem counted_nestingsOf (counted : Nesting.Counted tree position.nestings) (items : List Item) :
    Nesting.Counted tree (position.nestingsOf items) := fun number nesting found =>
  counted number nesting ((position.gathered_nestingsOf items).part number nesting found)

theorem counted_after (counted : Nesting.Counted tree position.nestings) (items : List Item) :
    Nesting.Counted tree (position.after tree items).nestings := by
  refine Walk.Counts.run ⟨counted_nestingsOf counted items, fun frame parent hmem => ?_⟩
  obtain ⟨item, _, heq⟩ := List.mem_map.1 hmem
  cases heq

end Position

/-! ## Chains -/

variable {σ τ : Type}

/-- All nestings along a chain are of occurrences. -/
theorem Chain.counted_callAll {chain after : Chain σ τ} {calls : List Call} {state state' : σ}
    (counted : Nesting.Counted chain.api.tree chain.position.nestings)
    (runs : (chain.callAll calls).run state = (.ok after, state')) :
    Nesting.Counted after.api.tree after.position.nestings := by
  induction calls generalizing chain state with
  | nil =>
    obtain rfl := Except.ok.inj (Prod.mk.inj runs).1
    exact counted
  | cons next rest ih =>
    rw [callAll_cons] at runs
    split at runs
    · cases runs
    · rename_i middle state'' hcall
      obtain ⟨hapi, hposition⟩ := call_ok hcall
      refine ih ?_ runs
      rw [hapi, hposition]
      exact Position.counted_after counted _

/-- The walk at the beginning of a chain, and every walk from a position that the chain comes to, opens at most
as many nestings as there are occurrences at the nodes of the tree, at each depth within the limit.  If no
reference limits a number of occurrences, these are the nodes that enter rules. -/
theorem Chain.expansions_bounded {api : Api σ τ} {rules : List Rule} {options : Options}
    (built : Tree.ofRules rules options = .ok api.tree) {entry : Nat}
    (hentry : entry ∈ api.tree.entryPoints) {begin chain : Chain σ τ} {calls : List Call}
    {state state₁ state₂ : σ} (begins : (api.chainAt entry).run state = (begin, state₁))
    (runs : (begin.callAll calls).run state₁ = (.ok chain, state₂)) :
    ((Position.start api.tree entry).added ∅).length ≤
        api.tree.occurrenceCount * (api.tree.maxDepth + 1) ∧
      (∀ items ⊆ chain.position.items,
        ((chain.position.after api.tree items).added (chain.position.nestingsOf items)).length ≤
          api.tree.occurrenceCount * (api.tree.maxDepth + 1)) ∧
      ((∀ id ∈ api.tree.openers, ∀ limit, (api.tree.label id).repeats ≠ .times limit) →
        api.tree.occurrenceCount = api.tree.openers.length) := by
  have closed := Tree.closed_ofRules built
  have within := closed.lt_size_of_mem_entryPoints hentry
  obtain ⟨hapi, hmatches⟩ := matches_chainAt closed within state
  have hcounted := Position.counted_start api.tree entry
  have hposition : (((api.chainAt entry).run state).1).position = Position.start api.tree entry := rfl
  rw [← hposition] at hcounted
  rw [begins] at hapi hmatches hcounted
  obtain rfl : begin.api = api := hapi
  obtain ⟨hsame, matches_⟩ := Matches.callAll closed hmatches runs
  have counted := counted_callAll hcounted runs
  refine ⟨(Walk.setsOut_start within).length_added_le closed ?_, fun items part => ?_,
    Tree.occurrenceCount_eq⟩
  · intro number nesting found
    simp at found
  · have fits : ∀ item ∈ items, item.Fits chain.api.tree chain.position.nestings :=
      fun item hitem => (matches_.items item (part hitem)).1
    rw [← hsame] at closed ⊢
    exact (Walk.setsOut_after matches_.table fits).length_added_le closed
      (Position.counted_nestingsOf counted items)

/-- In the lists that begin with lists the units count three times. -/
theorem Chain.expansions_bounded_left :
    leftTree.openers = [1, 2, 3, 4] ∧ leftTree.occurrenceCount = 6 ∧
    ∃ chain : Chain Unit Transcript,
      ((((Api.mk leftTree .transcript).chainAt 1).run ()).1.callAll [⟨"item", []⟩, ⟨"item", []⟩]).run () =
        (.ok chain, ()) ∧
      ((Position.start leftTree 1).added ∅).length ≤ leftTree.occurrenceCount * (leftTree.maxDepth + 1) ∧
      ∀ items ⊆ chain.position.items,
        ((chain.position.after leftTree items).added (chain.position.nestingsOf items)).length ≤
          leftTree.occurrenceCount * (leftTree.maxDepth + 1) := by
  have built : Tree.ofRules leftRules .initial = .ok leftTree := rfl
  have closed := Tree.closed_ofRules built
  have hentry : 1 ∈ leftTree.entryPoints := by decide +kernel
  have hmatches : (((Api.mk leftTree .transcript).chainAt 1).run ()).1.Matches 1 [] :=
    (matches_chainAt closed (closed.lt_size_of_mem_entryPoints hentry) ()).2
  obtain ⟨chain, state, runs⟩ := hmatches.exists_callAll closed (fun _ _ _ => ⟨_, _, rfl⟩) leftTree_after ()
  obtain ⟨hstart, hafter, _⟩ := expansions_bounded built hentry rfl runs
  exact ⟨by decide +kernel, by decide +kernel, chain, runs, hstart, hafter⟩

/-- Up to five parts, each of which may be nothing. -/
def partsRules : List Rule :=
  [⟨"parts", [[.reference "part" false (.times 5)]]⟩, ⟨"part", [[.symbol "a" [] true]]⟩]

def partsTree : Tree := Tree.ofEntries 1 [Unfolding.ofEntry partsRules "parts"]

/-- The walk at the beginning enters five parts one after the other, although only two nodes enter rules and
there are only two depths. -/
theorem expansions_exceed_openers :
    Tree.ofRules partsRules (Options.initial.withMaxDepth 1) = .ok partsTree ∧
      1 ∈ partsTree.entryPoints ∧ partsTree.openers = [1, 2] ∧ partsTree.maxDepth = 1 ∧
      ((Position.start partsTree 1).added ∅).length = 6 ∧
      ¬ ((Position.start partsTree 1).added ∅).length ≤
        partsTree.openers.length * (partsTree.maxDepth + 1) := by
  exact ⟨rfl, by decide +kernel, by decide +kernel, rfl, by decide +kernel, by decide +kernel⟩

end ChainGrammar
