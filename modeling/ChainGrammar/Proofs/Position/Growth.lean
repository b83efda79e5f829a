import ChainGrammar.Proofs.Position.Lengths
import ChainGrammar.Proofs.Position.Limit
import ChainGrammar.Proofs.Position.Stacks

/-!
# How chains grow

A call carries over nestings and then opens no more of them than one walk can.  The nestings of a chain are therefore
at most so many for each call and the beginning, all of them at the levels of the tree; and where no reference is
unbounded there are only so many calls (`Chain.nestings_bounded`).

Elsewhere a chain can grow with every call, since nestings that are carried over stay apart even when they are of one
level and one parent.  In words that are put down in a text, and go on as long as there is something to put down, it
cannot be told whether a call goes on with a word or begins the next one: every word that has been begun is kept below
the part that may follow in any of them (`Chain.nestings_grow`).
-/

set_option autoImplicit false

namespace ChainGrammar

/-! ## The size of a position -/

/-- A table that has no other numbers than another one is not larger. -/
theorem Nesting.size_le {part all : Std.TreeMap Nat Nesting} (within : ∀ number ∈ part, number ∈ all) :
    part.size ≤ all.size := by
  rw [← Std.TreeMap.length_keys, ← Std.TreeMap.length_keys]
  refine (List.subperm_of_subset Std.TreeMap.nodup_keys fun number hnumber => ?_).length_le
  exact Std.TreeMap.mem_keys.2 (within number (Std.TreeMap.mem_keys.1 hnumber))

namespace Position

variable {tree : Tree} {entry : Nat} {position : Position} {items : List Item}

/-- The nestings of a position are carried over or added. -/
theorem size_le_add (position : Position) (carried : Std.TreeMap Nat Nesting) :
    position.nestings.size ≤ carried.size + (position.added carried).length := by
  have hkept : (position.nestings.keys.filter fun number => carried.contains number).length ≤
      carried.size := by
    rw [← Std.TreeMap.length_keys]
    refine (List.subperm_of_subset (Std.TreeMap.nodup_keys.filter _) fun number hnumber => ?_).length_le
    exact Std.TreeMap.mem_keys.2 (Std.TreeMap.mem_iff_contains.2 (List.mem_filter.1 hnumber).2)
  calc position.nestings.size = position.nestings.keys.length := Std.TreeMap.length_keys.symm
    _ = (position.nestings.keys.filter fun number => carried.contains number).length +
        (position.added carried).length := List.length_eq_length_filter_add _
    _ ≤ carried.size + (position.added carried).length := Nat.add_le_add_right hkept _

theorem size_nestingsOf_le (position : Position) (items : List Item) :
    (position.nestingsOf items).size ≤ position.nestings.size :=
  Nesting.size_le fun number hnumber => by
    obtain ⟨nesting, found⟩ := Walk.exists_of_mem hnumber
    exact Walk.mem_of_getElem? ((position.gathered_nestingsOf items).part number nesting found)

theorem size_start_le (closed : tree.Closed) (inside : entry < tree.size) :
    (start tree entry).nestings.size ≤ tree.occurrenceCount * (tree.maxDepth + 1) := by
  have hadded := (Walk.setsOut_start inside).length_added_le closed fun number nesting found => by
    simp at found
  have hsize := (start tree entry).size_le_add ∅
  rw [Std.TreeMap.size_emptyc, Nat.zero_add] at hsize
  exact hsize.trans hadded

/-- A call adds no more than one walk opens. -/
theorem Placed.size_after_le (closed : tree.Closed) (placed : position.Placed tree entry)
    (part : items ⊆ position.items) : (position.after tree items).nestings.size ≤
      position.nestings.size + tree.occurrenceCount * (tree.maxDepth + 1) := by
  have sets := Walk.setsOut_after placed.table fun item hitem => placed.fits item (part hitem)
  calc (position.after tree items).nestings.size
      ≤ (position.nestingsOf items).size +
          ((position.after tree items).added (position.nestingsOf items)).length := size_le_add _ _
    _ ≤ position.nestings.size + tree.occurrenceCount * (tree.maxDepth + 1) :=
        Nat.add_le_add (position.size_nestingsOf_le items)
          (sets.length_added_le closed (counted_nestingsOf placed.counted items))

end Position

variable {σ τ : Type}

/-- A chain grows by no more than one walk opens with each call. -/
theorem Chain.size_callAll_le {chain after : Chain σ τ} {entry : Nat} {calls : List Call} {state state' : σ}
    (closed : chain.api.tree.Closed) (last : chain.api.tree.next? entry = none)
    (placed : chain.position.Placed chain.api.tree entry)
    (runs : (chain.callAll calls).run state = (.ok after, state')) :
    after.position.nestings.size ≤ chain.position.nestings.size +
      calls.length * (chain.api.tree.occurrenceCount * (chain.api.tree.maxDepth + 1)) := by
  induction calls generalizing chain state with
  | nil =>
    obtain rfl := Except.ok.inj (Prod.mk.inj runs).1
    simp
  | cons next rest ih =>
    rw [callAll_cons] at runs
    split at runs
    · cases runs
    · rename_i middle state'' hcall
      obtain ⟨hapi, hposition⟩ := call_ok hcall
      have part := chain.callable_subset next.method next.args.length
      have hcall := placed.size_after_le closed part
      have hrest := ih (hapi ▸ closed) (hapi ▸ last)
        (by rw [hapi, hposition]; exact placed.after closed last part) runs
      rw [hapi, hposition] at hrest
      rw [List.length_cons, Nat.succ_mul]
      omega

/-- Whatever the hooks do, all nestings of a chain are at the levels of occurrences of the tree, and there are at most
as many of them as these levels for the beginning and each call.  Where no reference is unbounded, the number of calls
and with it the number of nestings is bounded by the tree. -/
theorem Chain.nestings_bounded {api : Api σ τ} {rules : List Rule} {options : Options}
    (authored : Rules.Authored rules) (built : Tree.ofRules rules options = .ok api.tree) {entry : Nat}
    (hentry : entry ∈ api.tree.entryPoints) {begin chain : Chain σ τ} {calls : List Call}
    {state state₁ state₂ : σ} (begins : (api.chainAt entry).run state = (begin, state₁))
    (runs : (begin.callAll calls).run state₁ = (.ok chain, state₂)) :
    (∀ (number : Nat) (nesting : Nesting), chain.position.nestings[number]? = some nesting →
      nesting.toLevel ∈ Walk.occurrenceLevels api.tree) ∧
    chain.position.nestings.size ≤
      (calls.length + 1) * (api.tree.occurrenceCount * (api.tree.maxDepth + 1)) ∧
    ((∀ id, (api.tree.label id).repeats ≠ .unbounded) →
      calls.length ≤ api.tree.callsFrom api.tree.maxDepth entry ∧
        chain.position.nestings.size ≤ (api.tree.callsFrom api.tree.maxDepth entry + 1) *
          (api.tree.occurrenceCount * (api.tree.maxDepth + 1))) := by
  have closed := Tree.closed_ofRules built
  have inside := closed.lt_size_of_mem_entryPoints hentry
  obtain ⟨last, _⟩ := Tree.entry_facts authored built hentry
  obtain ⟨rfl, rfl⟩ := Prod.mk.inj begins
  have hsize : chain.position.nestings.size ≤
      (calls.length + 1) * (api.tree.occurrenceCount * (api.tree.maxDepth + 1)) := by
    have hstart := Position.size_start_le closed inside
    have hcalls := size_callAll_le closed last (Position.placed_start closed last inside) runs
    rw [Nat.succ_mul, Nat.add_comm]
    exact hcalls.trans (Nat.add_le_add_right hstart _)
  refine ⟨fun number nesting found => ?_, hsize, fun limited => ?_⟩
  · have placed : chain.position.Placed api.tree entry :=
      (reachable_callAll .start runs).placed closed last inside
    exact Walk.mem_occurrenceLevels (placed.counted number nesting found) (placed.within number nesting found)
  · obtain ⟨hapi, hmatches⟩ := matches_chainAt closed inside state
    obtain ⟨plain, hplain⟩ := hmatches.exists_after closed .start runs
    have hlength : calls.length ≤ api.tree.callsFrom api.tree.maxDepth entry := hplain.length_le built limited
    exact ⟨hlength, hsize.trans (Nat.mul_le_mul_right _ (Nat.succ_le_succ hlength))⟩

/-- No reference in a bracket is unbounded. -/
theorem Chain.nestings_bounded_brackets :
    Rules.Authored bracketRules ∧ Tree.ofRules bracketRules .initial = .ok bracketTree ∧
      1 ∈ bracketTree.entryPoints ∧ (∀ id, (bracketTree.label id).repeats ≠ .unbounded) ∧
      ∃ chain : Chain Unit Transcript,
        ((((Api.mk bracketTree .transcript).chainAt 1).run ()).1.callAll bracketCalls).run () =
          (.ok chain, ()) ∧
        (∀ (number : Nat) (nesting : Nesting), chain.position.nestings[number]? = some nesting →
          nesting.toLevel ∈ Walk.occurrenceLevels bracketTree) ∧
        chain.position.nestings.size ≤
          (bracketCalls.length + 1) * (bracketTree.occurrenceCount * (bracketTree.maxDepth + 1)) ∧
        bracketCalls.length ≤ bracketTree.callsFrom bracketTree.maxDepth 1 ∧
        chain.position.nestings.size ≤ (bracketTree.callsFrom bracketTree.maxDepth 1 + 1) *
          (bracketTree.occurrenceCount * (bracketTree.maxDepth + 1)) := by
  have hentry : 1 ∈ (Api.mk bracketTree (.transcript : Hooks Unit Transcript)).tree.entryPoints := by
    decide +kernel
  have limited : ∀ id, (bracketTree.label id).repeats ≠ .unbounded :=
    Tree.forall_label (P := fun label => label.repeats ≠ .unbounded) (by decide) (by decide +kernel)
  obtain ⟨chain, runs⟩ := exists_transcript bracketTree_built hentry bracketCalls_after
  obtain ⟨levels, size, bounded⟩ := nestings_bounded bracketRules_authored bracketTree_built hentry rfl runs
  exact ⟨bracketRules_authored, bracketTree_built, hentry, limited, chain, runs, levels, size, bounded limited⟩

/-! ## What is open at the end of a walk -/

namespace Walk

variable {tree : Tree} {walk : Walk} {frame : Frame} {parent : Option Nat}

theorem GoesOn.entered {item : Item} {next : Nat} (goes : walk.GoesOn tree [] item)
    (found : tree.next? item.node = some next) : ⟨next, item.nesting⟩ ∈ walk.entered := by
  rcases goes with pending | ⟨other, hother, entered | pending⟩ | ⟨last, _⟩
  · cases pending
  · obtain rfl := Option.some.inj (found.symm.trans hother)
    exact entered
  · cases pending
  · rw [found] at last
    cases last

theorem GoesOn.finished {node number : Nat} (goes : walk.GoesOn tree [] ⟨node, some number⟩)
    (last : tree.next? node = none) : number ∈ walk.finished := by
  rcases goes with pending | ⟨next, found, _⟩ | ⟨_, ⟨top, _⟩ | ⟨other, done, hother⟩⟩
  · cases pending
  · rw [last] at found
    cases found
  · cases top
  · exact Option.some.inj hother ▸ done

end Walk

/-- The position offers the node in the nesting, which is one of the frame on top of the parent. -/
def Position.OffersIn (position : Position) (node : Nat) (frame : Frame) (parent : Option Nat)
    (number : Nat) : Prop :=
  ∃ nesting : Nesting, position.nestings[number]? = some nesting ∧ nesting.frame = frame ∧
    parent ∈ nesting.parents ∧ ⟨node, some number⟩ ∈ position.items

/-- In a tree without back-edges no frame is too deep, so the methods that begin a frame which is open are on offer, in
a nesting that the walk has opened. -/
theorem Walk.IsOpen.offers {tree : Tree} {walk : Walk} {frame : Frame} {parent : Option Nat}
    (isOpen : walk.IsOpen tree [] frame parent) (tidy : walk.Tidy tree []) (covered : walk.Covered tree [])
    (flat : tree.Flat) {node : Nat} (first : node ∈ tree.body frame.body)
    (method : (tree.label node).isMethod = true) :
    ∃ (level : Level) (number : Nat), walk.opened[level]? = some number ∧
      walk.position.OffersIn node frame parent number := by
  rcases isOpen with pending | deep | ⟨number, isOpen, hparent, comes⟩
  · cases pending
  · rw [levelOn, flat, depth_eq_depthIn, tidy.table.depthIn_eq_zero flat] at deep
    exact absurd deep (Nat.not_lt_zero _)
  · obtain ⟨nesting, found, member⟩ := getElem?_of_mem_parents hparent
    obtain ⟨_, other, hother, hlevel⟩ := tidy.opened _ number isOpen
    obtain rfl := Option.some.inj (found.symm.trans hother)
    have entered := (comes node first).resolve_right List.not_mem_nil
    exact ⟨_, number, isOpen, nesting, found, congrArg Level.frame hlevel, member,
      Array.mem_toList_iff.2 (covered.offers _ entered method)⟩

/-- Where another occurrence may follow without a limit, it is open behind a finished one. -/
theorem Walk.Covered.offers_again {tree : Tree} {walk : Walk} (covered : walk.Covered tree [])
    (tidy : walk.Tidy tree []) (flat : tree.Flat) {number : Nat} {nesting : Nesting} {parent : Option Nat}
    (done : number ∈ walk.finished) (found : walk.nestings[number]? = some nesting)
    (member : parent ∈ nesting.parents)
    (unbounded : (tree.label nesting.frame.origin).repeats = .unbounded) {node : Nat}
    (first : node ∈ tree.body nesting.frame.body) (method : (tree.label node).isMethod = true) :
    ∃ (level : Level) (other : Nat), walk.opened[level]? = some other ∧
      walk.position.OffersIn node nesting.frame parent other := by
  rcases covered.leaves number done nesting found parent member with pending | ⟨_, again⟩
  · cases pending
  · rw [unbounded] at again
    exact (again rfl).offers tidy covered flat first method

namespace Position

variable {tree : Tree} {entry : Nat} {position : Position} {items : List Item}

/-- The nesting of a called item is carried over. -/
theorem getElem?_nestingsOf_of_mem {node number : Nat} {nesting : Nesting}
    (hitem : ⟨node, some number⟩ ∈ items) (found : position.nestings[number]? = some nesting) :
    (position.nestingsOf items)[number]? = some nesting :=
  getElem?_nestingsOf found ((position.gathered_nestingsOf items).wanted number ⟨_, hitem, rfl⟩
    (Walk.mem_of_getElem? found))

/-- A call leads to the end of a walk which has gone on behind the items and has left alone what was carried over. -/
theorem Placed.exists_walk (closed : tree.Closed) (placed : position.Placed tree entry)
    (part : items ⊆ position.items) :
    ∃ walk : Walk, walk.position = position.after tree items ∧ walk.Tidy tree [] ∧ walk.Covered tree [] ∧
      (∀ item ∈ items, walk.GoesOn tree [] item) ∧
      ∀ (number : Nat) (nesting : Nesting), (position.nestingsOf items)[number]? = some nesting →
        walk.nestings[number]? = some nesting ∧ ∀ level : Level, walk.opened[level]? ≠ some number := by
  have sets := Walk.setsOut_after placed.table fun item hitem => placed.fits item (part hitem)
  obtain ⟨tidy, sound, covered, _, goes⟩ := sets.done closed
  exact ⟨_, rfl, tidy, covered, fun item hitem => goes item (List.mem_map.2 ⟨item, hitem, rfl⟩), sound.kept⟩

end Position

/-! ## Words in a text -/

/-- Words that are put down in a text, the first part and any others of each of them. -/
def textRules : List Rule :=
  [⟨"text", [[.reference "word" false .unbounded]]⟩,
    ⟨"word", [[.symbol "put" [] false, .reference "tail" true .unbounded]]⟩,
    ⟨"tail", [[.symbol "put" [] false]]⟩]

/-- How the rules for words in a text are written. -/
def textEvents : List Session.Event :=
  [.openRule "text", .edit 0 (.reference "word"), .edit 0 (.repeated (-1)), .edit 0 (.rule "word"),
    .edit 0 (.symbol "put" []), .edit 0 (.reference "tail"), .edit 0 (.repeated (-1)), .edit 0 .optional,
    .edit 0 (.rule "tail"), .edit 0 (.symbol "put" []), .edit 0 .finish]

/-- The tree of the rules for words in a text: the word at node 2 has its first part at node 3 and further ones, each of
them at node 5, by the reference at node 4. -/
def textTree : Tree := Tree.ofEntries 64 [Unfolding.ofEntry textRules "text"]

theorem textTree_built : Tree.ofRules textRules .initial = .ok textTree := rfl

theorem textTree_flat : textTree.Flat := .of_nodes (by decide +kernel)

namespace Walk

variable {walk : Walk} {word number : Nat} {nesting : Nesting} {parent : Option Nat}

/-- Behind the first part of a word another one may follow, and the word may also be at its end. -/
theorem GoesOn.part_or_end (goes : walk.GoesOn textTree [] ⟨3, some word⟩) (tidy : walk.Tidy textTree [])
    (covered : walk.Covered textTree []) :
    (∃ part, walk.position.OffersIn 5 ⟨4, 4, 1⟩ (some word) part) ∧ word ∈ walk.finished := by
  have entered : ⟨4, some word⟩ ∈ walk.entered :=
    goes.entered (by decide +kernel : textTree.next? 3 = some 4)
  have isOpen := covered.opens _ entered 4 (by decide +kernel : textTree.opens? 4 = some 4)
  have passed := covered.skips _ entered (by decide +kernel : (textTree.label 4).optional = true)
  obtain ⟨_, part, _, offers⟩ := isOpen.offers tidy covered textTree_flat
    (by decide +kernel : 5 ∈ textTree.body 4) (by decide +kernel)
  exact ⟨⟨part, offers⟩, passed.finished (by decide +kernel : textTree.next? 4 = none)⟩

/-- Behind a further part of a word one more may follow. -/
theorem GoesOn.further_part (goes : walk.GoesOn textTree [] ⟨5, some number⟩)
    (tidy : walk.Tidy textTree []) (covered : walk.Covered textTree [])
    (found : walk.nestings[number]? = some nesting) (hframe : nesting.frame = ⟨4, 4, 1⟩)
    (member : parent ∈ nesting.parents) : ∃ part, walk.position.OffersIn 5 ⟨4, 4, 1⟩ parent part := by
  have done := goes.finished (by decide +kernel : textTree.next? 5 = none)
  obtain ⟨_, part, _, offers⟩ := covered.offers_again tidy textTree_flat done found member
    (by rw [hframe]; decide +kernel) (by rw [hframe]; decide +kernel : 5 ∈ textTree.body nesting.frame.body)
    (by decide +kernel)
  exact ⟨part, hframe ▸ offers⟩

/-- Behind a word another one may begin. -/
theorem Covered.another_word (covered : walk.Covered textTree []) (tidy : walk.Tidy textTree [])
    (done : word ∈ walk.finished) (found : walk.nestings[word]? = some nesting)
    (hframe : nesting.frame = ⟨2, 2, 1⟩) (member : parent ∈ nesting.parents) :
    ∃ (level : Level) (other : Nat), walk.opened[level]? = some other ∧
      walk.position.OffersIn 3 ⟨2, 2, 1⟩ parent other := by
  have offers := covered.offers_again tidy textTree_flat done found member
    (by rw [hframe]; decide +kernel) (by rw [hframe]; decide +kernel : 3 ∈ textTree.body nesting.frame.body)
    (by decide +kernel)
  rwa [hframe] at offers

end Walk

/-- The words have been begun, and in each of them a further part may follow; and one more word may be begun. -/
structure Position.Begun (position : Position) (words : List Nat) : Prop where
  distinct : words.Nodup
  parts : ∀ word ∈ words, ∃ number, position.OffersIn 5 ⟨4, 4, 1⟩ (some word) number
  fresh : ∃ word parent, word ∉ words ∧ position.OffersIn 3 ⟨2, 2, 1⟩ parent word

namespace Position

variable {position : Position} {items : List Item} {words : List Nat}

theorem begun_start : (start textTree 1).Begun [] where
  distinct := List.nodup_nil
  parts := by simp
  fresh := ⟨1, some 0, List.not_mem_nil, ⟨⟨⟨2, 2, 1⟩, 0⟩, [some 0]⟩, by decide +kernel, rfl,
    by decide, by decide +kernel⟩

theorem Begun.length_le (begun : position.Begun words) (placed : position.Placed textTree 1) :
    words.length ≤ position.nestings.size := by
  rw [← Std.TreeMap.length_keys]
  refine (List.subperm_of_subset begun.distinct fun word hword => ?_).length_le
  obtain ⟨number, nesting, found, _, member, _⟩ := begun.parts word hword
  exact Std.TreeMap.mem_keys.2 (placed.table.present number nesting found _ member word rfl)

/-- Something that is put down may be the next part of every word that has been begun, and it may begin a word. -/
theorem Begun.after (begun : position.Begun words) (placed : position.Placed textTree 1)
    (part : items ⊆ position.items)
    (all : ∀ item ∈ position.items, item.node = 3 ∨ item.node = 5 → item ∈ items) :
    ∃ word, (position.after textTree items).Begun (word :: words) := by
  obtain ⟨walk, hwalk, tidy, covered, goes, kept⟩ :=
    placed.exists_walk (Tree.closed_ofRules textTree_built) part
  rw [← hwalk]
  obtain ⟨word, parent, fresh, nesting, found, hframe, member, offered⟩ := begun.fresh
  have hitem := all _ offered (.inl rfl)
  have hword := getElem?_nestingsOf_of_mem hitem found
  obtain ⟨follows, done⟩ := (goes _ hitem).part_or_end tidy covered
  obtain ⟨level, another, isOpen, hanother⟩ := covered.another_word tidy done (kept word nesting hword).1
    hframe member
  -- the words are all carried over, and so is none of them the one that is opened
  have hwords : ∀ other ∈ word :: words, other ∈ position.nestingsOf items := by
    intro other hother
    rcases List.mem_cons.1 hother with rfl | hother
    · exact Walk.mem_of_getElem? hword
    · obtain ⟨number, nesting, found, _, member, offered⟩ := begun.parts other hother
      exact (position.gathered_nestingsOf items).closed number nesting
        (getElem?_nestingsOf_of_mem (all _ offered (.inr rfl)) found) other member
        (placed.table.present number nesting found _ member other rfl)
  refine ⟨word, List.nodup_cons.2 ⟨fresh, begun.distinct⟩, fun other hother => ?_, another, parent,
    fun hmem => ?_, hanother⟩
  · rcases List.mem_cons.1 hother with rfl | hother
    · exact follows
    · obtain ⟨number, nesting, found, hframe, member, offered⟩ := begun.parts other hother
      have hitem := all _ offered (.inr rfl)
      exact (goes _ hitem).further_part tidy covered
        (kept number nesting (getElem?_nestingsOf_of_mem hitem found)).1 hframe member
  · obtain ⟨other, hother⟩ := Walk.exists_of_mem (hwords another hmem)
    exact (kept another other hother).2 level isOpen

end Position

namespace Chain

variable {chain : Chain Unit Transcript} {words : List Nat}

/-- The call is made by all items that can. -/
theorem call_put (hapi : chain.api = Api.mk textTree .transcript) (placed : chain.position.Placed textTree 1)
    (begun : chain.position.Begun words) :
    ∃ (after : Chain Unit Transcript) (word : Nat), (chain.call "put" []).run () = (.ok after, ()) ∧
      after.api = chain.api ∧ after.position.Placed textTree 1 ∧ after.position.Begun (word :: words) := by
  have htree : chain.api.tree = textTree := by rw [hapi]
  have all : ∀ item ∈ chain.position.items, item.node = 3 ∨ item.node = 5 →
      item ∈ chain.callable "put" 0 := by
    intro item hitem hnode
    have hlabel : (textTree.label item.node).name = "put" ∧ (textTree.label item.node).params = [] := by
      rcases hnode with hnode | hnode <;> rw [hnode] <;> decide +kernel
    refine List.mem_filter.2 ⟨List.mem_filter.2 ⟨hitem, ?_⟩, ?_⟩
    · rw [htree, hlabel.1]
      rfl
    · rw [arity, htree, hlabel.2]
      rfl
  have part := chain.callable_subset "put" 0
  obtain ⟨_, _, _, _, _, _, _, offered⟩ := begun.fresh
  have hsome : chain.callable "put" ([] : List Value).length ≠ [] :=
    List.ne_nil_of_mem (all _ offered (.inl rfl))
  have willing : chain.api.hooks.Willing := by
    rw [hapi]
    exact fun _ _ _ => ⟨_, _, rfl⟩
  obtain ⟨after, _, hcall⟩ := exists_call willing hsome ()
  obtain ⟨hsame, hposition⟩ := call_ok hcall
  rw [htree] at hposition
  obtain ⟨word, hbegun⟩ := begun.after placed part all
  refine ⟨after, word, hcall, hsame, ?_, ?_⟩
  · rw [hposition]
    exact placed.after (Tree.closed_ofRules textTree_built) (by decide +kernel) part
  · rw [hposition]
    exact hbegun

/-- Each call that is made adds to the words that have been begun. -/
theorem exists_begun (hapi : chain.api = Api.mk textTree .transcript)
    (placed : chain.position.Placed textTree 1) (begun : chain.position.Begun words) (count : Nat) :
    ∃ (after : Chain Unit Transcript) (more : List Nat),
      (chain.callAll (List.replicate count ⟨"put", []⟩)).run () = (.ok after, ()) ∧
        after.position.Placed textTree 1 ∧ after.position.Begun more ∧
        more.length = words.length + count := by
  induction count generalizing chain words with
  | zero => exact ⟨chain, words, rfl, placed, begun, rfl⟩
  | succ count ih =>
    obtain ⟨middle, word, hcall, hsame, hplaced, hbegun⟩ := call_put hapi placed begun
    obtain ⟨after, more, runs, hafter, hmore, hlength⟩ := ih (hsame.trans hapi) hplaced hbegun
    refine ⟨after, more, ?_, hafter, hmore, ?_⟩
    · rw [List.replicate_succ, callAll_cons, hcall]
      exact runs
    · rw [hlength, List.length_cons, Nat.succ_add_eq_add_succ]

/-- However often something is put down, each time another nesting is kept. -/
theorem nestings_grow (count : Nat) : ∃ chain : Chain Unit Transcript,
    ((((Api.mk textTree .transcript).chainAt 1).run ()).1.callAll
      (List.replicate count ⟨"put", []⟩)).run () = (.ok chain, ()) ∧
    count ≤ chain.position.nestings.size := by
  have closed := Tree.closed_ofRules textTree_built
  have placed : (Position.start textTree 1).Placed textTree 1 :=
    Position.placed_start closed (by decide +kernel) (by decide +kernel)
  have hapi : (((Api.mk textTree (.transcript : Hooks Unit Transcript)).chainAt 1).run ()).1.api =
      Api.mk textTree .transcript := rfl
  obtain ⟨chain, words, runs, hplaced, begun, hlength⟩ :=
    exists_begun hapi placed Position.begun_start count
  refine ⟨chain, runs, ?_⟩
  have hle := begun.length_le hplaced
  rw [hlength, List.length_nil, Nat.zero_add] at hle
  exact hle

/-- No number depending only on the tree bounds the nestings of the chains in the text. -/
theorem nestings_unbounded :
    Rules.Authored textRules ∧ Tree.ofRules textRules .initial = .ok textTree ∧ 1 ∈ textTree.entryPoints ∧
      ¬∃ bound, ∀ (calls : List Call) (chain : Chain Unit Transcript),
        ((((Api.mk textTree .transcript).chainAt 1).run ()).1.callAll calls).run () = (.ok chain, ()) →
          chain.position.nestings.size ≤ bound := by
  refine ⟨Rules.authored_run "" textEvents, textTree_built, by decide +kernel, ?_⟩
  rintro ⟨bound, bounds⟩
  obtain ⟨chain, runs, hsize⟩ := nestings_grow (bound + 1)
  exact Nat.not_succ_le_self bound (hsize.trans (bounds _ chain runs))

end Chain

end ChainGrammar
