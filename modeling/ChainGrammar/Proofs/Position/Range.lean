import ChainGrammar.Proofs.Chain.Calls

/-!
# Walks end and stay in range

Every walk that a chain sets out on comes to its end, and until then it looks up nothing that is not there
(`Chain.expansions_safe`).  What is looked up when a task is handled is read off the task (`Task.nodes`,
`Task.nestings`), so that a tidy walk is in range at once (`Walk.Tidy.inRange`), and it is tidy at every moment.

Occurrences are counted only where they are limited, and another one is counted only while the limit has not been
reached.  No number of occurrences is therefore larger than the largest limit.

A call carries over the nestings that the called items need (`Position.Needs`).  All of them are nestings of the
position that is left (`Position.imports_nestingsOf`).
-/

set_option autoImplicit false

namespace ChainGrammar

/-- The nodes of the tree that are looked up when a task is handled. -/
def Task.nodes (walk : Walk) : Task → List Nat
  | .enter item => [item.node]
  | .descend frame _ => [frame.body, frame.origin]
  | .advance item => [item.node]
  | .resume number _ => ((walk.nestings[number]?).map fun nesting => nesting.frame.origin).toList

/-- The nestings that are looked up when a task is handled. -/
def Task.nestings (tree : Tree) (walk : Walk) : Task → List Nat
  | .enter _ => []
  | .descend frame parent => parent.toList ++ (walk.opened[walk.levelOn tree frame parent]?).toList
  | .advance item => item.nesting.toList
  | .resume number parent => number :: parent.toList

namespace Walk

variable {tree : Tree} {walk first : Walk} {agenda : List Task}

/-! ## Numbers of occurrences -/

/-- No node counts more occurrences than the largest limit. -/
theorem longestRepeat_le (tree : Tree) : longestRepeat tree ≤ Repeat.largestLimit := by
  have hcounted : ∀ node : Node, counted node ≤ Repeat.largestLimit := by
    intro node
    unfold counted
    split
    · rename_i limit _
      have hlimit := limit.toNat_lt
      simp only [Repeat.largestLimit]
      omega
    · exact Nat.zero_le _
  have hfold : ∀ (nodes : List Node) (longest : Nat), longest ≤ Repeat.largestLimit →
      nodes.foldl (fun longest node => max longest (counted node)) longest ≤ Repeat.largestLimit := by
    intro nodes
    induction nodes with
    | nil => exact fun _ h => h
    | cons node nodes ih => exact fun longest h => ih _ (max_le h (hcounted node))
  rw [longestRepeat_eq]
  exact hfold _ 1 (by decide)

/-- Another occurrence is counted only below the largest limit. -/
theorem succ_le_of_allowsAnother {repeats : Repeat} {done : Nat} (limited : repeats ≠ .unbounded)
    (allows : repeats.allowsAnother done = true) : done + 1 ≤ Repeat.largestLimit := by
  cases repeats with
  | once => cases allows
  | times limit =>
    have hlimit := limit.toNat_lt
    simp only [Repeat.allowsAnother, decide_eq_true_eq] at allows
    simp only [Repeat.largestLimit]
    omega
  | unbounded => exact absurd rfl limited

/-! ## What is looked up -/

/-- Whatever the tasks of the agenda look up is there, and no number of occurrences is too large. -/
structure InRange (tree : Tree) (walk : Walk) (agenda : List Task) : Prop where
  nodes : ∀ task ∈ agenda, ∀ id ∈ task.nodes walk, id < tree.size
  nestings : ∀ task ∈ agenda, ∀ number ∈ task.nestings tree walk, number ∈ walk.nestings
  /-- Where a finished occurrence may be followed by another one that is counted, that one can be counted. -/
  counts : ∀ (number : Nat) (parent : Option Nat), .resume number parent ∈ agenda →
    ∀ nesting, walk.nestings[number]? = some nesting →
      (tree.label nesting.frame.origin).repeats ≠ .unbounded →
      (tree.label nesting.frame.origin).repeats.allowsAnother nesting.frame.iteration = true →
        nesting.frame.iteration + 1 ≤ Repeat.largestLimit
  counted : (∀ frame parent, .descend frame parent ∈ agenda → frame.iteration ≤ Repeat.largestLimit) ∧
    ∀ (number : Nat) nesting, walk.nestings[number]? = some nesting →
      nesting.frame.iteration ≤ Repeat.largestLimit

theorem mem_of_mem_toList {nestings : Std.TreeMap Nat Nesting} {nesting : Option Nat}
    (present : Nesting.Present nestings nesting) : ∀ number ∈ nesting.toList, number ∈ nestings :=
  fun number hnumber => present number (Option.mem_toList.1 hnumber)

/-- A tidy walk looks up only what is there. -/
theorem Tidy.inRange (tidy : walk.Tidy tree agenda) : walk.InRange tree agenda where
  nodes := by
    intro task htask id hid
    have fits := tidy.agenda task htask
    cases task with
    | enter item =>
      obtain rfl := List.mem_singleton.1 hid
      exact fits.node
    | descend frame parent =>
      obtain rfl | rfl : id = frame.body ∨ id = frame.origin := by simpa [Task.nodes] using hid
      · exact fits.1.body
      · exact fits.1.origin
    | advance item =>
      obtain rfl := List.mem_singleton.1 hid
      exact fits.node
    | resume number parent =>
      obtain ⟨nesting, found, rfl⟩ := Option.map_eq_some_iff.1 (Option.mem_toList.1 hid)
      exact (tidy.table.frame number nesting found).origin
  nestings := by
    intro task htask number hnumber
    have fits := tidy.agenda task htask
    cases task with
    | enter item => cases hnumber
    | descend frame parent =>
      rcases List.mem_append.1 hnumber with hparent | hopen
      · exact mem_of_mem_toList fits.2 number hparent
      · obtain ⟨_, nesting, found, _⟩ := tidy.opened _ number (Option.mem_toList.1 hopen)
        exact mem_of_getElem? found
    | advance item => exact mem_of_mem_toList fits.present number hnumber
    | resume finished parent =>
      rcases List.mem_cons.1 hnumber with rfl | hparent
      · exact tidy.finished number fits.1
      · obtain ⟨nesting, found, hmem⟩ := getElem?_of_mem_parents fits.2
        exact mem_of_mem_toList (tidy.table.present finished nesting found parent hmem) number hparent
  counts _ _ _ _ _ limited allows := succ_le_of_allowsAnother limited allows
  counted := by
    constructor
    · intro frame parent htask
      exact (tidy.agenda _ htask).1.counted.trans (longestRepeat_le tree)
    · intro number nesting found
      exact (tidy.table.frame number nesting found).counted.trans (longestRepeat_le tree)

/-- A walk comes to its end at the position, and at every moment it is in range. -/
structure Safe (tree : Tree) (first : Walk) (agenda : List Task) (position : Position) : Prop where
  ends : ∃ steps last, runFor tree steps first agenda = (last, []) ∧ last.position = position
  inRange (steps : Nat) :
    (runFor tree steps first agenda).1.InRange tree (runFor tree steps first agenda).2

/-- A walk that sets out from the nestings of a position is safe. -/
theorem SetsOut.safe (closed : tree.Closed) (sets : SetsOut tree first agenda) :
    Safe tree first agenda (first.run tree agenda).position where
  ends := ⟨first.budget tree agenda, first.run tree agenda, Prod.ext rfl (sets.ends closed), rfl⟩
  inRange steps := by
    have tidy := runFor_keeps (P := fun walk left => walk.Tidy tree left)
      (fun _ _ _ _ _ tidy handles => tidy.step closed handles) steps first agenda sets.tidy
    exact tidy.inRange

end Walk

/-! ## What is carried over -/

/-- What is gathered from a table of nestings is what there was to do and what is below it. -/
theorem Nesting.of_mem_gather {wanted : Nat → Prop} {number : Nat} (left kept : Std.TreeMap Nat Nesting)
    (todo : List Nat)
    (below : ∀ (number : Nat) nesting, left[number]? = some nesting → wanted number →
      ∀ other, some other ∈ nesting.parents → wanted other)
    (hkept : ∀ number ∈ kept, wanted number) (htodo : ∀ number ∈ todo, wanted number)
    (h : number ∈ gather left kept todo) : wanted number := by
  match todo with
  | [] =>
    rw [gather] at h
    exact hkept number h
  | other :: rest =>
    obtain ⟨hother, hrest⟩ := List.forall_mem_cons.1 htodo
    cases found : left[other]? with
    | none =>
      rw [gather_none found] at h
      exact of_mem_gather left kept rest below hkept hrest h
    | some nesting =>
      rw [gather_some found] at h
      have fewer := size_erase_lt found
      refine of_mem_gather (left.erase other) (kept.insert other nesting) _ ?_ ?_ ?_ h
      · intro number nesting hleft
        rw [Std.TreeMap.getElem?_erase] at hleft
        split at hleft
        · cases hleft
        · exact below number nesting hleft
      · intro number hnumber
        rcases Std.TreeMap.mem_insert.1 hnumber with hsame | hnumber
        · rwa [← Std.LawfulEqOrd.compare_eq_iff_eq.1 hsame]
        · exact hkept number hnumber
      · refine List.forall_mem_append.2 ⟨fun number hnumber => ?_, hrest⟩
        obtain ⟨parent, hparent, hsome⟩ := List.mem_filterMap.1 hnumber
        obtain rfl : parent = some number := hsome
        exact below other nesting found hother number hparent
termination_by (left.size, todo.length)

namespace Position

variable {tree : Tree} {position : Position} {items : List Item}

/-- The nestings that a call of the items carries over: those of the items, and what is below these. -/
inductive Needs (position : Position) (items : List Item) : Nat → Prop where
  | item {item : Item} {number : Nat} (member : item ∈ items) (nested : item.nesting = some number) :
      Needs position items number
  | parent {number below : Nat} {nesting : Nesting} (needed : Needs position items number)
      (found : position.nestings[number]? = some nesting) (member : some below ∈ nesting.parents) :
      Needs position items below

/-- What is carried over are the needed nestings, all of which are nestings of the position. -/
structure Imports (position : Position) (items : List Item) : Prop where
  exist : ∀ number, position.Needs items number → number ∈ position.nestings
  carried : ∀ (number : Nat) nesting, (position.nestingsOf items)[number]? = some nesting ↔
    position.Needs items number ∧ position.nestings[number]? = some nesting

/-- Needed nestings are nestings of the table if those of the items are. -/
theorem Needs.mem_nestings {next number : Nat} (table : Nesting.Table tree position.nestings next)
    (fits : ∀ item ∈ items, item.Fits tree position.nestings) (h : position.Needs items number) :
    number ∈ position.nestings := by
  induction h with
  | item member nested => exact (fits _ member).present _ nested
  | parent _ found member _ => exact table.present _ _ found _ member _ rfl

theorem imports_nestingsOf {next : Nat} (table : Nesting.Table tree position.nestings next)
    (fits : ∀ item ∈ items, item.Fits tree position.nestings) : position.Imports items where
  exist _ := Needs.mem_nestings table fits
  carried := by
    have gathered := position.gathered_nestingsOf items
    intro number nesting
    constructor
    · intro found
      refine ⟨?_, gathered.part number nesting found⟩
      refine Nesting.of_mem_gather _ _ _ ?_ ?_ ?_ (Walk.mem_of_getElem? found)
      · exact fun _ _ found needed _ member => .parent needed found member
      · simp
      · intro number hnumber
        obtain ⟨item, member, nested⟩ := List.mem_filterMap.1 hnumber
        exact .item member nested
    · rintro ⟨needed, found⟩
      have hmem : number ∈ position.nestingsOf items := by
        clear found
        induction needed with
        | item member nested => exact gathered.wanted _ ⟨_, member, nested⟩ ((fits _ member).present _ nested)
        | parent needed found member ih =>
          have hall := table.present _ _ found _ member _ rfl
          obtain ⟨other, hother⟩ := Walk.exists_of_mem ih
          obtain rfl := Option.some.inj (found.symm.trans (gathered.part _ _ hother))
          exact gathered.closed _ _ hother _ member hall
      obtain ⟨other, hother⟩ := Walk.exists_of_mem hmem
      rw [← found, gathered.part number other hother, hother]

end Position

/-! ## Chains -/

variable {σ τ : Type}

/-- Whatever the hooks do, the walk at the beginning of a chain and every walk from a position that the chain comes
to end, they stay in range, and all nestings that are carried over are there. -/
theorem Chain.expansions_safe {api : Api σ τ} {rules : List Rule} {options : Options}
    (built : Tree.ofRules rules options = .ok api.tree) {entry : Nat}
    (hentry : entry ∈ api.tree.entryPoints) {begin chain : Chain σ τ} {calls : List Call}
    {state state₁ state₂ : σ} (begins : (api.chainAt entry).run state = (begin, state₁))
    (runs : (begin.callAll calls).run state₁ = (.ok chain, state₂)) :
    Walk.Safe api.tree {} [.enter ⟨entry, none⟩] (Position.start api.tree entry) ∧
      ∀ items ⊆ chain.position.items, chain.position.Imports items ∧
        Walk.Safe api.tree
          { nestings := chain.position.nestingsOf items, nextNesting := chain.position.nextNesting }
          (items.map .advance) (chain.position.after api.tree items) := by
  have closed := Tree.closed_ofRules built
  have within := closed.lt_size_of_mem_entryPoints hentry
  obtain ⟨hapi, hmatches⟩ := matches_chainAt closed within state
  rw [begins] at hapi hmatches
  obtain rfl : begin.api = api := hapi
  obtain ⟨hsame, matches_⟩ := Matches.callAll closed hmatches runs
  refine ⟨(Walk.setsOut_start within).safe closed, fun items part => ?_⟩
  have fits : ∀ item ∈ items, item.Fits chain.api.tree chain.position.nestings :=
    fun item hitem => (matches_.items item (part hitem)).1
  rw [← hsame] at closed ⊢
  exact ⟨Position.imports_nestingsOf matches_.table fits, (Walk.setsOut_after matches_.table fits).safe closed⟩

/-- Lists that begin with lists, and with any number of units that may be nothing but other units. -/
def leftRules : List Rule :=
  [⟨"list", [[.reference "list" true .unbounded, .reference "unit" true (.times 3), .symbol "item" [] false]]⟩,
    ⟨"unit", [[.reference "unit" true .once], [.symbol "first" [] true]]⟩]

def leftTree : Tree := Tree.ofEntries 64 [Unfolding.ofEntry leftRules "list"]

/-- The plain machine makes two calls of the method behind the left recursion. -/
theorem leftTree_after :
    Plain.After leftTree 1 [⟨"item", []⟩, ⟨"item", []⟩] (.behind 6 [⟨1, 1, 1⟩]) := by
  have item : leftTree.label 6 = .method "item" "list" [] false := by decide +kernel
  have past : ∀ {calls : List Call} {stack : List Frame}, Plain.After leftTree 1 calls (.behind 2 stack) →
      Plain.After leftTree 1 calls (.before 6 stack) := by
    intro calls stack h
    have units : Plain.After leftTree 1 calls (.before 3 stack) := .silent h (.next (by decide +kernel))
    exact .silent (.silent units (.skip (by decide +kernel))) (.next (by decide +kernel))
  have outer : Plain.After leftTree 1 [] (.before 2 [⟨1, 1, 1⟩]) :=
    .silent .start (.descend (.inl ⟨⟨"list", false, .once, by decide +kernel⟩, rfl⟩)
      (by decide +kernel) (by decide +kernel))
  have inner : Plain.After leftTree 1 [] (.before 2 [⟨1, 2, 1⟩, ⟨1, 1, 1⟩]) :=
    .silent outer (.descend (.inr (by decide +kernel)) (by decide +kernel) (by decide +kernel))
  have once : Plain.After leftTree 1 [⟨"item", []⟩] (.behind 6 [⟨1, 2, 1⟩, ⟨1, 1, 1⟩]) :=
    .call (past (.silent inner (.skip (by decide +kernel)))) item rfl
  exact .call (past (.silent once (.leave (by decide +kernel)))) item rfl

theorem Chain.expansions_safe_left :
    ∃ chain : Chain Unit Transcript,
      ((((Api.mk leftTree .transcript).chainAt 1).run ()).1.callAll [⟨"item", []⟩, ⟨"item", []⟩]).run () =
        (.ok chain, ()) ∧
      Walk.Safe leftTree {} [.enter ⟨1, none⟩] (Position.start leftTree 1) ∧
      ∀ items ⊆ chain.position.items, chain.position.Imports items ∧
        Walk.Safe leftTree
          { nestings := chain.position.nestingsOf items, nextNesting := chain.position.nextNesting }
          (items.map .advance) (chain.position.after leftTree items) := by
  have built : Tree.ofRules leftRules .initial = .ok leftTree := rfl
  have closed := Tree.closed_ofRules built
  have hentry : 1 ∈ leftTree.entryPoints := by decide +kernel
  have hmatches : (((Api.mk leftTree .transcript).chainAt 1).run ()).1.Matches 1 [] :=
    (matches_chainAt closed (closed.lt_size_of_mem_entryPoints hentry) ()).2
  obtain ⟨chain, state, runs⟩ := hmatches.exists_callAll closed (fun _ _ _ => ⟨_, _, rfl⟩) leftTree_after ()
  exact ⟨chain, runs, expansions_safe built hentry rfl runs⟩

end ChainGrammar
