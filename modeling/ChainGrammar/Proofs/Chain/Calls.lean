import ChainGrammar.Proofs.Position.Exactness

/-!
# Chains and the plain machine

Along a chain the position matches the plain machine (`Chain.Matches`), whatever the hooks do: a call
that succeeds moves both alike (`Chain.Matches.call`).  If the hooks accept every call, a chain makes
all the calls that the plain machine makes (`Chain.Matches.exists_callAll`).
-/

set_option autoImplicit false

namespace ChainGrammar

open Plain (State Accepts Reaches)

variable {σ τ : Type}

/-- The hooks accept every call. -/
def Hooks.Willing (hooks : Hooks σ τ) : Prop :=
  ∀ invocation target state, ∃ target' state',
    (hooks.call invocation target).run state = (.ok target', state')

namespace Chain

variable {chain after : Chain σ τ} {state state' : σ} {entry : Nat} {done calls : List Call}

/-! ## One call -/

/-- A method that no item offers is unknown. -/
theorem call_of_matching_nil {method : String} {args : List Value} (h : chain.matching method = [])
    (state : σ) : (chain.call method args).run state =
      (.error (.unknownMethod method chain.methods), state) := by
  unfold Chain.call
  rw [h]
  rfl

/-- A call that only items with another number of arguments offer is refused for the first of them. -/
theorem call_of_callable_nil {method : String} {args : List Value} {candidate : Item}
    {others : List Item} (h : chain.matching method = candidate :: others)
    (none : chain.callable method args.length = []) (state : σ) :
    (chain.call method args).run state =
      (.error (.arity method (chain.arity candidate) args.length), state) := by
  unfold Chain.call
  rw [h, none]
  rfl

/-- A call that no item takes is refused. -/
theorem call_of_nil {method : String} {args : List Value}
    (h : chain.callable method args.length = []) (state : σ) :
    ∃ error, (chain.call method args).run state = (.error error, state) := by
  cases hmatching : chain.matching method with
  | nil => exact ⟨_, call_of_matching_nil hmatching state⟩
  | cons candidate others => exact ⟨_, call_of_callable_nil hmatching h state⟩

/-- A call that some items take is made if the hooks accept it. -/
theorem call_of_cons {method : String} {args : List Value} {item : Item} {others : List Item}
    (h : chain.callable method args.length = item :: others) (state : σ) :
    (chain.call method args).run state =
      match (chain.api.hooks.call (chain.invocation item args) chain.target).run state with
      | (.error reason, state) => (.error (.hook method reason), state)
      | (.ok target, state) => (.ok ⟨chain.api, target,
          chain.position.after chain.api.tree (item :: others)⟩, state) := by
  have hmatching : chain.matching method ≠ [] := by
    intro hnil
    rw [callable, hnil] at h
    cases h
  unfold Chain.call
  split
  · rename_i hnil
    exact absurd hnil hmatching
  · rw [h]
    simp only [StateT.run_bind]
    rcases (chain.api.hooks.call (chain.invocation item args) chain.target).run state with
      ⟨answer, state'⟩
    cases answer <;> rfl

/-- A call that succeeds moves on to the position after the items that take it. -/
theorem call_ok {method : String} {args : List Value}
    (h : (chain.call method args).run state = (.ok after, state')) :
    after.api = chain.api ∧
      after.position = chain.position.after chain.api.tree (chain.callable method args.length) := by
  cases hcallable : chain.callable method args.length with
  | nil =>
    obtain ⟨error, herror⟩ := call_of_nil hcallable state
    rw [herror] at h
    cases h
  | cons item others =>
    rw [call_of_cons hcallable] at h
    split at h
    · cases h
    · obtain rfl := Except.ok.inj (Prod.mk.inj h).1
      exact ⟨rfl, rfl⟩

/-- Willing hooks accept every call that some item takes. -/
theorem exists_call (willing : chain.api.hooks.Willing) {method : String} {args : List Value}
    (h : chain.callable method args.length ≠ []) (state : σ) :
    ∃ after state', (chain.call method args).run state = (.ok after, state') := by
  obtain ⟨item, others, hcallable⟩ := List.exists_cons_of_ne_nil h
  obtain ⟨target, state', hhook⟩ := willing (chain.invocation item args) chain.target state
  rw [call_of_cons hcallable, hhook]
  exact ⟨_, _, rfl⟩

/-- The items that take a call are on offer. -/
theorem callable_subset (chain : Chain σ τ) (method : String) (count : Nat) :
    chain.callable method count ⊆ chain.position.items := fun _ hitem =>
  (List.mem_filter.1 (List.mem_filter.1 hitem).1).1

/-- The first call is made before the others. -/
theorem callAll_cons (chain : Chain σ τ) (next : Call) (rest : List Call) (state : σ) :
    (chain.callAll (next :: rest)).run state =
      match (chain.call next.method next.args).run state with
      | (.error error, state) => (.error error, state)
      | (.ok after, state) => (after.callAll rest).run state := by
  rw [callAll]
  simp only [StateT.run_bind]
  rcases (chain.call next.method next.args).run state with ⟨answer, state'⟩
  cases answer <;> rfl

/-! ## Chains match the plain machine -/

/-- The position of the chain matches the plain machine after the calls. -/
abbrev Matches (chain : Chain σ τ) (entry : Nat) (calls : List Call) : Prop :=
  chain.position.Matches chain.api.tree entry calls

/-- The items that take a call are those that accept it. -/
theorem Matches.mem_callable_iff (matches_ : chain.Matches entry done) (call : Call) (item : Item) :
    item ∈ chain.callable call.method call.args.length ↔
      item ∈ chain.position.items ∧ Accepts chain.api.tree item.node call := by
  rw [callable, List.mem_filter, matching, Position.matching, List.mem_filter, and_assoc]
  refine and_congr_right fun hitem => ?_
  have hmethod := (matches_.items item hitem).2
  simp only [Accepts, arity, hmethod, beq_iff_eq, true_and]

/-- The items that take a call are in nestings of the position. -/
theorem Matches.fits_of_mem_callable (matches_ : chain.Matches entry done) {method : String} {count : Nat}
    {item : Item} (h : item ∈ chain.callable method count) :
    item.Fits chain.api.tree chain.position.nestings :=
  (matches_.items item (chain.callable_subset method count h)).1

/-- A call that succeeds moves the chain and the plain machine alike. -/
theorem Matches.call (closed : chain.api.tree.Closed) (matches_ : chain.Matches entry done)
    {next : Call} (h : (chain.call next.method next.args).run state = (.ok after, state')) :
    after.Matches entry (done ++ [next]) := by
  obtain ⟨hapi, hposition⟩ := call_ok h
  rw [Matches, hapi, hposition]
  exact Position.Matches.after closed matches_ fun item => matches_.mem_callable_iff next item

/-- Calls that succeed move the chain and the plain machine alike. -/
theorem Matches.callAll (closed : chain.api.tree.Closed) (matches_ : chain.Matches entry done)
    (h : (chain.callAll calls).run state = (.ok after, state')) :
    after.api = chain.api ∧ after.Matches entry (done ++ calls) := by
  induction calls generalizing chain done state with
  | nil =>
    obtain rfl := Except.ok.inj (Prod.mk.inj h).1
    rw [List.append_nil]
    exact ⟨rfl, matches_⟩
  | cons next rest ih =>
    rw [callAll_cons] at h
    split at h
    · cases h
    · rename_i middle state'' hcall
      obtain ⟨hapi, _⟩ := call_ok hcall
      obtain ⟨hafter, hmatches⟩ := ih (hapi ▸ closed) (matches_.call closed hcall) h
      rw [List.append_assoc, List.singleton_append] at hmatches
      exact ⟨hafter.trans hapi, hmatches⟩

/-- What a chain is at the beginning of an entry rule. -/
theorem run_chainAt (api : Api σ τ) (entry : Nat) (state : σ) : (api.chainAt entry).run state =
    (⟨api, (api.hooks.create.run state).1, Position.start api.tree entry⟩,
      (api.hooks.create.run state).2) := rfl

/-- At its beginning a chain matches the plain machine. -/
theorem matches_chainAt {api : Api σ τ} (closed : api.tree.Closed) (hentry : entry < api.tree.size)
    (state : σ) :
    (((api.chainAt entry).run state).1).api = api ∧
      (((api.chainAt entry).run state).1).Matches entry [] := by
  have hmatches := Position.matches_start closed hentry
  have hapi : (((api.chainAt entry).run state).1).api = api := rfl
  have hposition : (((api.chainAt entry).run state).1).position =
      Position.start api.tree entry := rfl
  exact ⟨hapi, by rw [Matches, hapi, hposition]; exact hmatches⟩

/-- The calls that have been made before others have been made. -/
theorem exists_after_of_append {tree : Tree} {next : Call} {later : List Call} {state : State}
    (h : Plain.After tree entry (done ++ next :: later) state) :
    ∃ node stack, Plain.After tree entry done (.before node stack) ∧ Accepts tree node next := by
  induction later using List.reverseRecOn generalizing state with
  | nil =>
    obtain ⟨node, stack, before, accepts, _⟩ := Plain.after_append_iff.1 h
    exact ⟨node, stack, before, accepts⟩
  | append_singleton later last ih =>
    rw [← List.cons_append, ← List.append_assoc] at h
    obtain ⟨node, stack, before, _, _⟩ := Plain.after_append_iff.1 h
    exact ih before

/-- With willing hooks a chain makes all the calls that the plain machine makes. -/
theorem Matches.exists_callAll (closed : chain.api.tree.Closed) (willing : chain.api.hooks.Willing)
    (matches_ : chain.Matches entry done) {plain : State}
    (h : Plain.After chain.api.tree entry (done ++ calls) plain) (state : σ) :
    ∃ after state', (chain.callAll calls).run state = (.ok after, state') := by
  induction calls generalizing chain done state with
  | nil => exact ⟨chain, state, rfl⟩
  | cons next rest ih =>
    obtain ⟨node, stack, before, accepts⟩ := exists_after_of_append h
    obtain ⟨item, hitem, rfl, _⟩ := (matches_.offers node stack).2 ⟨accepts.1, before⟩
    have hcallable := (matches_.mem_callable_iff next item).2 ⟨hitem, accepts⟩
    obtain ⟨middle, state'', hcall⟩ := exists_call willing (List.ne_nil_of_mem hcallable) state
    obtain ⟨hapi, _⟩ := call_ok hcall
    rw [callAll_cons, hcall]
    refine ih (hapi ▸ closed) (hapi ▸ willing) (matches_.call closed hcall) ?_ state''
    rw [List.append_assoc, List.singleton_append, hapi]
    exact h

/-- The plain machine makes all the calls that succeed on a chain. -/
theorem Matches.exists_after (closed : chain.api.tree.Closed) (matches_ : chain.Matches entry done)
    {plain : State} (before : Plain.After chain.api.tree entry done plain)
    (h : (chain.callAll calls).run state = (.ok after, state')) :
    ∃ plain, Plain.After chain.api.tree entry (done ++ calls) plain := by
  induction calls generalizing chain done state plain with
  | nil =>
    rw [List.append_nil]
    exact ⟨plain, before⟩
  | cons next rest ih =>
    rw [callAll_cons] at h
    split at h
    · cases h
    · rename_i middle state'' hcall
      obtain ⟨hapi, _⟩ := call_ok hcall
      have hcallable : chain.callable next.method next.args.length ≠ [] := by
        intro hnil
        obtain ⟨error, herror⟩ := call_of_nil hnil state
        rw [herror] at hcall
        cases hcall
      obtain ⟨item, hitem⟩ := List.exists_mem_of_ne_nil _ hcallable
      obtain ⟨hposition, accepts⟩ := (matches_.mem_callable_iff next item).1 hitem
      obtain ⟨stack, unfolds⟩ := Position.exists_unfolds matches_.table
        (matches_.items item hposition).1.present
      have live := ((matches_.offers item.node stack).1 ⟨item, hposition, rfl, unfolds⟩).2
      have behind := Plain.after_append_iff.2 ⟨item.node, stack, live, accepts, .refl⟩
      obtain ⟨last, hlast⟩ := ih (hapi ▸ closed) (matches_.call closed hcall) (hapi ▸ behind) h
      rw [List.append_assoc, List.singleton_append, hapi] at hlast
      exact ⟨last, hlast⟩

/-- With willing hooks the calls take a chain to where it may end if they take the plain machine to its
end. -/
theorem Matches.callAll_complete_iff (matches_ : chain.Matches entry done)
    (closed : chain.api.tree.Closed) (willing : chain.api.hooks.Willing) (state : σ) :
    (∃ after state', (chain.callAll calls).run state = (.ok after, state') ∧
      after.isComplete = true) ↔ Plain.Complete chain.api.tree entry (done ++ calls) := by
  constructor
  · rintro ⟨after, state', runs, complete⟩
    obtain ⟨hsame, hafter⟩ := Matches.callAll closed matches_ runs
    rw [← hsame]
    exact hafter.complete.1 complete
  · intro complete
    obtain ⟨after, state', runs⟩ := matches_.exists_callAll closed willing complete state
    obtain ⟨hsame, hafter⟩ := Matches.callAll closed matches_ runs
    rw [← hsame] at complete
    exact ⟨after, state', runs, hafter.complete.2 complete⟩

/-- The names of the methods on offer are those that the plain machine offers. -/
theorem Matches.mem_methods_iff (matches_ : chain.Matches entry done) (name : String) :
    name ∈ chain.methods ↔
      ∃ node stack, Plain.Live chain.api.tree entry done node stack ∧
        (chain.api.tree.label node).name = name := by
  rw [methods, Position.methods, List.mem_eraseDups, List.mem_map]
  constructor
  · rintro ⟨item, hitem, hname⟩
    obtain ⟨stack, unfolds⟩ := Position.exists_unfolds matches_.table (matches_.items item hitem).1.present
    exact ⟨item.node, stack, (matches_.offers item.node stack).1 ⟨item, hitem, rfl, unfolds⟩, hname⟩
  · rintro ⟨node, stack, live, hname⟩
    obtain ⟨item, hitem, rfl, _⟩ := (matches_.offers node stack).2 live
    exact ⟨item, hitem, hname⟩

end Chain

/-! ## Calls from an entry rule on -/

namespace Api

variable {api : Api σ τ} {entry : String} {id : Nat} {calls : List Call} {state state' : σ}

/-- What comes of calls on a chain that begins at the entry rule of the given name, with the state
afterwards; nothing if there is no such rule. -/
def play? (api : Api σ τ) (entry : String) (calls : List Call) (state : σ) :
    Option (Except InvokeError (Chain σ τ) × σ) :=
  (api.startAt? entry).map fun begin => (begin >>= fun chain => chain.callAll calls).run state

/-- The calls are made on the chain at the node of the entry rule. -/
theorem play?_eq (api : Api σ τ) (found : api.tree.entryPoint? entry = some id) (calls : List Call)
    (state : σ) : api.play? entry calls state = some ((((api.chainAt id).run state).1.callAll calls).run
      ((api.chainAt id).run state).2) := by
  rw [play?, startAt?, found]
  rfl

/-- After calls that succeed the chain matches the plain machine, which has made them too. -/
theorem matches_of_play? (closed : api.tree.Closed) (found : api.tree.entryPoint? entry = some id)
    (hid : id < api.tree.size) {chain : Chain σ τ}
    (h : api.play? entry calls state = some (.ok chain, state')) :
    chain.api = api ∧ chain.Matches id calls ∧ ∃ plain, Plain.After api.tree id calls plain := by
  rw [play?_eq api found] at h
  obtain ⟨hapi, hmatches⟩ := Chain.matches_chainAt closed hid state
  obtain ⟨hsame, hchain⟩ := Chain.Matches.callAll (hapi ▸ closed) hmatches (Option.some.inj h)
  obtain ⟨plain, hplain⟩ := hmatches.exists_after (hapi ▸ closed) .start (Option.some.inj h)
  rw [List.nil_append] at hchain hplain
  exact ⟨hsame.trans hapi, hchain, plain, hapi ▸ hplain⟩

/-- With willing hooks the calls that the plain machine makes succeed. -/
theorem exists_play? (closed : api.tree.Closed) (willing : api.hooks.Willing)
    (found : api.tree.entryPoint? entry = some id) (hid : id < api.tree.size) {plain : State}
    (h : Plain.After api.tree id calls plain) (state : σ) :
    ∃ chain state', api.play? entry calls state = some (.ok chain, state') := by
  obtain ⟨hapi, hmatches⟩ := Chain.matches_chainAt closed hid state
  obtain ⟨chain, state', runs⟩ := hmatches.exists_callAll (hapi ▸ closed) (hapi ▸ willing)
    (by rw [hapi, List.nil_append]; exact h) ((api.chainAt id).run state).2
  exact ⟨chain, state', by rw [play?_eq api found, runs]⟩

end Api

/-- The tree of a list of rules is closed. -/
theorem Tree.closed_ofRules {rules : List Rule} {options : Options} {tree : Tree}
    (built : Tree.ofRules rules options = .ok tree) : tree.Closed := by
  obtain ⟨_, _, entries, _, rfl⟩ := ofRules_ok built
  exact closed_ofEntries _ _

/-- The entry rules of a closed tree are in the tree. -/
theorem Tree.Closed.lt_size_of_mem_entryPoints {tree : Tree} (closed : tree.Closed) {entry : Nat}
    (h : entry ∈ tree.entryPoints) : entry < tree.size :=
  closed.below 0 entry (List.mem_append_right _ h)

/-- Whatever the hooks do, after any calls that succeed the position of a chain stands for exactly what
the plain machine offers after these calls, each method with its stacks, and says rightly whether the
chain may end. -/
theorem Chain.position_exact {api : Api σ τ} {rules : List Rule} {options : Options}
    (built : Tree.ofRules rules options = .ok api.tree) {entry : Nat}
    (hentry : entry ∈ api.tree.entryPoints) {begin chain : Chain σ τ} {calls : List Call}
    {state state₁ state₂ : σ} (begins : (api.chainAt entry).run state = (begin, state₁))
    (runs : (begin.callAll calls).run state₁ = (.ok chain, state₂)) :
    (∀ node stack, chain.position.Offers node stack ↔ Plain.Live api.tree entry calls node stack) ∧
      (chain.isComplete = true ↔ Plain.Complete api.tree entry calls) ∧
      ∀ name, name ∈ chain.methods ↔ ∃ node stack, Plain.Live api.tree entry calls node stack ∧
        (api.tree.label node).name = name := by
  have closed := Tree.closed_ofRules built
  obtain ⟨hapi, hmatches⟩ := matches_chainAt closed (closed.lt_size_of_mem_entryPoints hentry) state
  rw [begins] at hapi hmatches
  obtain rfl : begin.api = api := hapi
  obtain ⟨hsame, matches_⟩ := Matches.callAll closed hmatches runs
  rw [List.nil_append] at matches_
  rw [← hsame]
  exact ⟨matches_.offers, matches_.complete, matches_.mem_methods_iff⟩

/-- A transcript can be made of all calls that the plain machine makes. -/
theorem Chain.exists_transcript {tree : Tree} {rules : List Rule} {options : Options}
    (built : Tree.ofRules rules options = .ok tree) {entry : Nat} (hentry : entry ∈ tree.entryPoints)
    {calls : List Call} {plain : State} (h : Plain.After tree entry calls plain) :
    ∃ chain : Chain Unit Transcript,
      ((((Api.mk tree .transcript).chainAt entry).run ()).1.callAll calls).run () = (.ok chain, ()) := by
  have closed := Tree.closed_ofRules built
  have hmatches : (((Api.mk tree .transcript).chainAt entry).run ()).1.Matches entry [] :=
    (matches_chainAt closed (closed.lt_size_of_mem_entryPoints hentry) ()).2
  obtain ⟨chain, _, runs⟩ := hmatches.exists_callAll closed (fun _ _ _ => ⟨_, _, rfl⟩) h ()
  exact ⟨chain, runs⟩

/-- A bracket around a name. -/
def bracketCalls : List Call := [⟨"open", [.int 1]⟩, ⟨"atom", [.int 2]⟩, ⟨"close", []⟩]

/-- The plain machine makes the calls of a bracket around a name. -/
theorem bracketCalls_after :
    Plain.After bracketTree 1 bracketCalls (.behind 4 [⟨1, 1, 1⟩]) := by
  have outer : Plain.After bracketTree 1 [] (.before 2 [⟨1, 1, 1⟩]) :=
    .silent .start (.descend (.inl ⟨⟨"term", false, .once, by decide +kernel⟩, rfl⟩)
      (by decide +kernel) (by decide +kernel))
  have opened : Plain.After bracketTree 1 [⟨"open", [.int 1]⟩] (.before 3 [⟨1, 1, 1⟩]) :=
    .silent (.call outer (by decide +kernel : bracketTree.label 2 = .method "open" "term" [.value] false)
      rfl) (.next (by decide +kernel))
  have inner : Plain.After bracketTree 1 [⟨"open", [.int 1]⟩]
      (.before 5 [⟨1, 3, 1⟩, ⟨1, 1, 1⟩]) :=
    .silent opened (.descend (.inr (by decide +kernel)) (by decide +kernel) (by decide +kernel))
  have named : Plain.After bracketTree 1 [⟨"open", [.int 1]⟩, ⟨"atom", [.int 2]⟩]
      (.before 4 [⟨1, 1, 1⟩]) :=
    .silent (.silent (.call inner
      (by decide +kernel : bracketTree.label 5 = .method "atom" "term" [.named "name"] false) rfl)
      (.leave (by decide +kernel))) (.next (by decide +kernel))
  exact .call named (by decide +kernel : bracketTree.label 4 = .method "close" "term" [] false) rfl

/-- After a bracket around a name the position is exact. -/
theorem position_exact_brackets :
    ∃ chain : Chain Unit Transcript,
      ((((Api.mk bracketTree .transcript).chainAt 1).run ()).1.callAll bracketCalls).run () =
        (.ok chain, ()) ∧
      (∀ node stack, chain.position.Offers node stack ↔
        Plain.Live bracketTree 1 bracketCalls node stack) ∧
      (chain.isComplete = true ↔ Plain.Complete bracketTree 1 bracketCalls) ∧
      ∀ name, name ∈ chain.methods ↔ ∃ node stack, Plain.Live bracketTree 1 bracketCalls node stack ∧
        (bracketTree.label node).name = name := by
  have closed := Tree.closed_ofRules bracketTree_built
  have hentry : 1 ∈ bracketTree.entryPoints := by decide +kernel
  have hmatches : (((Api.mk bracketTree .transcript).chainAt 1).run ()).1.Matches 1 [] :=
    (Chain.matches_chainAt closed (closed.lt_size_of_mem_entryPoints hentry) ()).2
  obtain ⟨chain, state, runs⟩ := hmatches.exists_callAll closed (fun _ _ _ => ⟨_, _, rfl⟩)
    bracketCalls_after ()
  exact ⟨chain, runs, Chain.position_exact bracketTree_built hentry rfl runs⟩

end ChainGrammar
