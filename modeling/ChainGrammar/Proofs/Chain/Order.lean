import ChainGrammar.Proofs.Chain.Calls
import ChainGrammar.Proofs.Position.Pairing

/-!
# Chains of reordered rules

The order in which rules are written carries no meaning beyond the order of the entry rules
(`Tree.ofRules_reordered`).  Reordered rules have trees or faults of the same kind, each entry rule has the
same nodes below it, and chains that begin at entry rules of the same name do the same whatever is called on
them: the chains of the two trees stay at corresponding positions (`Chain.Twins.callAll`).
-/

set_option autoImplicit false

namespace ChainGrammar

variable {σ τ : Type}

/-- Two runs that end in the same state with the same fault or with related values. -/
structure SameOutcome {ε α : Type} (values : α → α → Prop) (run run' : Except ε α × σ) : Prop where
  answer : Agree Eq values run.1 run'.1
  state : run.2 = run'.2

namespace Chain

/-- Chains that look the same from outside. -/
structure LooksLike (chain chain' : Chain σ τ) : Prop where
  methods : chain.methods = chain'.methods
  complete : chain.isComplete = chain'.isComplete
  target : chain.target = chain'.target

/-- Chains with the same hooks at corresponding positions of two trees, after the same calls. -/
structure Twins (pair : Nat → Nat → Prop) (entry entry' : Nat) (calls : List Call)
    (chain chain' : Chain σ τ) : Prop where
  closed : chain.api.tree.Closed
  closed' : chain'.api.tree.Closed
  pairing : chain.api.tree.Pairing chain'.api.tree pair
  limit : chain.api.tree.maxDepth = chain'.api.tree.maxDepth
  hooks : chain.api.hooks = chain'.api.hooks
  target : chain.target = chain'.target
  position : chain.position.Paired pair chain'.position
  matches_ : chain.Matches entry calls
  matches' : chain'.Matches entry' calls

variable {pair : Nat → Nat → Prop} {entry entry' : Nat} {done : List Call} {chain chain' : Chain σ τ}

theorem Twins.looksLike (twins : Twins pair entry entry' done chain chain') : chain.LooksLike chain' where
  methods := twins.position.methods twins.pairing
  complete := twins.position.complete
  target := twins.target

/-- Corresponding items of twins offer a method. -/
theorem Twins.matching (twins : Twins pair entry entry' done chain chain') (method : String) :
    List.Forall₂ (Item.Paired pair) (chain.matching method) (chain'.matching method) := by
  refine List.rel_filter (fun item item' items => ?_) twins.position.items
  dsimp only
  rw [twins.pairing.label items.node]

theorem Twins.arity (twins : Twins pair entry entry' done chain chain') {item item' : Item}
    (items : item.Paired pair item') : chain.arity item = chain'.arity item' := by
  rw [Chain.arity, Chain.arity, twins.pairing.label items.node]

/-- Corresponding items of twins take a call. -/
theorem Twins.callable (twins : Twins pair entry entry' done chain chain') (method : String) (count : Nat) :
    List.Forall₂ (Item.Paired pair) (chain.callable method count) (chain'.callable method count) := by
  refine List.rel_filter (fun item item' items => ?_) (twins.matching method)
  dsimp only
  rw [twins.arity items]

/-- The hooks are told the same of calls that corresponding items take. -/
theorem Twins.invocation (twins : Twins pair entry entry' done chain chain') {item item' : Item}
    (items : item.Paired pair item') (args : List Value) :
    chain.invocation item args = chain'.invocation item' args := by
  rw [Chain.invocation, Chain.invocation, twins.pairing.label items.node]

/-- The same comes of a call on twins, and they stay twins. -/
theorem Twins.call (twins : Twins pair entry entry' done chain chain') (next : Call) (state : σ) :
    SameOutcome (Twins pair entry entry' (done ++ [next]))
      ((chain.call next.method next.args).run state) ((chain'.call next.method next.args).run state) := by
  have hmatching := twins.matching next.method
  have hcallable := twins.callable next.method next.args.length
  cases candidates : chain.matching next.method with
  | nil =>
    rw [candidates, List.forall₂_nil_left_iff] at hmatching
    rw [call_of_matching_nil candidates, call_of_matching_nil hmatching, twins.looksLike.methods]
    exact ⟨.error rfl, rfl⟩
  | cons candidate rest =>
    -- a call with a wrong number of arguments is answered by the first candidate
    rw [candidates, List.forall₂_cons_left_iff] at hmatching
    obtain ⟨candidate', rest', first, _, candidates'⟩ := hmatching
    cases takers : chain.callable next.method next.args.length with
    | nil =>
      rw [takers, List.forall₂_nil_left_iff] at hcallable
      rw [call_of_callable_nil candidates takers, call_of_callable_nil candidates' hcallable,
        twins.arity first]
      exact ⟨.error rfl, rfl⟩
    | cons item others =>
      rw [takers] at hcallable
      obtain ⟨item', others', items, _, takers'⟩ := List.forall₂_cons_left_iff.1 hcallable
      rw [takers'] at hcallable
      have hrun := call_of_cons takers state
      have hrun' := call_of_cons takers' state
      rw [← twins.invocation items, ← twins.hooks, ← twins.target] at hrun'
      generalize (chain.api.hooks.call (chain.invocation item next.args) chain.target).run state = result
        at hrun hrun'
      obtain ⟨reason | target, state'⟩ := result
      · rw [hrun, hrun']
        exact ⟨.error rfl, rfl⟩
      · have hposition := Position.after_paired twins.closed twins.closed' twins.pairing twins.limit
          twins.position twins.matches_.table twins.matches'.table
          (fun other hother => twins.matches_.fits_of_mem_callable (takers ▸ hother))
          (fun other hother => twins.matches'.fits_of_mem_callable (takers' ▸ hother)) hcallable
        have hmatches := twins.matches_.call twins.closed hrun
        have hmatches' := twins.matches'.call twins.closed' hrun'
        rw [hrun, hrun']
        exact ⟨.ok { twins with
          target := rfl, position := hposition, matches_ := hmatches, matches' := hmatches' }, rfl⟩

/-- The same comes of any calls on twins. -/
theorem Twins.callAll (twins : Twins pair entry entry' done chain chain') (calls : List Call) (state : σ) :
    SameOutcome LooksLike ((chain.callAll calls).run state) ((chain'.callAll calls).run state) := by
  induction calls generalizing chain chain' done state with
  | nil => exact ⟨.ok twins.looksLike, rfl⟩
  | cons next rest ih =>
    have hcall := twins.call next state
    rw [callAll_cons, callAll_cons]
    generalize (chain.call next.method next.args).run state = result at hcall ⊢
    generalize (chain'.call next.method next.args).run state = result' at hcall ⊢
    obtain ⟨answer, state'⟩ := result
    obtain ⟨answer', state''⟩ := result'
    obtain ⟨hanswer, hstate⟩ := hcall
    obtain rfl : state' = state'' := hstate
    cases hanswer with
    | error hfault =>
      obtain rfl := hfault
      exact ⟨.error rfl, rfl⟩
    | ok afters => exact ih afters state'

/-- Chains with the same hooks begin as twins at corresponding entry rules. -/
theorem twins_chainAt {tree other : Tree} (hooks : Hooks σ τ) (closed : tree.Closed)
    (closed' : other.Closed) (pairing : tree.Pairing other pair) (limit : tree.maxDepth = other.maxDepth)
    (hentry : entry < tree.size) (hentry' : entry' < other.size) (entries : pair entry entry') (state : σ) :
    Twins pair entry entry' [] (((Api.mk tree hooks).chainAt entry).run state).1
      (((Api.mk other hooks).chainAt entry').run state).1 := by
  have hposition := Position.start_paired closed closed' pairing limit hentry hentry' entries
  have hmatches := Position.matches_start closed hentry
  have hmatches' := Position.matches_start closed' hentry'
  rw [run_chainAt, run_chainAt]
  dsimp only
  generalize Position.start tree entry = position at hposition hmatches ⊢
  generalize Position.start other entry' = position' at hposition hmatches' ⊢
  exact ⟨closed, closed', pairing, limit, rfl, rfl, hposition, hmatches, hmatches'⟩

end Chain

namespace Tree

/-- Two trees that differ in the order of their entry rules, and in the numbers of their nodes. -/
structure Reordered (options : Options) (tree other : Tree) : Prop where
  /-- The entry rules have the same names. -/
  names : tree.entryNames.Perm other.entryNames
  /-- The nodes of an entry rule correspond one to one. -/
  subtrees : ∀ name ∈ tree.entryNames, ∃ id id' pair, tree.entryPoint? name = some id ∧
    other.entryPoint? name = some id' ∧ tree.Pairing other pair ∧ pair id id'
  /-- Whatever the hooks, the same comes of calls on chains that begin at entry rules of the same name. -/
  chains : ∀ {σ τ : Type} (hooks : Hooks σ τ) (name : String) (calls : List Call) (state : σ),
    Option.Rel (SameOutcome Chain.LooksLike) ((Api.mk tree hooks).play? name calls state)
      ((Api.mk other hooks).play? name calls state)
  /-- The main rule, if there is one, is the first entry rule. -/
  primary : ∀ main, options.mainRule = some main → ∃ id id',
    tree.entryPoints.head? = some id ∧ tree.entryPoint? main = some id ∧
      other.entryPoints.head? = some id' ∧ other.entryPoint? main = some id'

variable {tree other : Tree} {name : String}

/-- The entry rule whose name comes first is the first entry rule. -/
theorem exists_head?_entryPoints (h : tree.entryNames.head? = some name) :
    ∃ id, tree.entryPoints.head? = some id ∧ tree.entryPoint? name = some id := by
  rw [entryNames, List.head?_map, Option.map_eq_some_iff] at h
  obtain ⟨id, hid, rfl⟩ := h
  obtain ⟨rest, hpoints⟩ := List.head?_eq_some_iff.1 hid
  exact ⟨id, hid, by rw [entryPoint?, hpoints, List.find?_cons, beq_self_eq_true]⟩

theorem entryPoint?_eq_none (h : name ∉ tree.entryNames) : tree.entryPoint? name = none := by
  refine List.find?_eq_none.2 fun id hid hname => h ?_
  exact List.mem_map.2 ⟨id, hid, by simpa using hname⟩

/-- Trees whose entry rules have the same names, with corresponding nodes, differ in their order only. -/
theorem Reordered.of_pairings {options : Options} (closed : tree.Closed) (closed' : other.Closed)
    (limit : tree.maxDepth = other.maxDepth) (names : tree.entryNames.Perm other.entryNames)
    (subtrees : ∀ name ∈ tree.entryNames, ∃ id id' pair, tree.entryPoint? name = some id ∧
      other.entryPoint? name = some id' ∧ tree.Pairing other pair ∧ pair id id')
    (primary : ∀ main, options.mainRule = some main →
      tree.entryNames.head? = some main ∧ other.entryNames.head? = some main) :
    Reordered options tree other where
  names := names
  subtrees := subtrees
  chains := by
    intro σ τ hooks name calls state
    by_cases hname : name ∈ tree.entryNames
    · obtain ⟨id, id', pair, found, found', pairing, entries⟩ := subtrees name hname
      have hid := closed.lt_size_of_mem_entryPoints (List.mem_of_find?_eq_some found)
      have hid' := closed'.lt_size_of_mem_entryPoints (List.mem_of_find?_eq_some found')
      have twins := Chain.twins_chainAt hooks closed closed' pairing limit hid hid' entries state
      rw [Api.play?_eq ⟨tree, hooks⟩ found, Api.play?_eq ⟨other, hooks⟩ found']
      exact .some (twins.callAll calls _)
    · have hname' : name ∉ other.entryNames := mt names.mem_iff.2 hname
      rw [Api.play?, Api.startAt?, entryPoint?_eq_none hname, Api.play?, Api.startAt?,
        entryPoint?_eq_none hname']
      exact .none
  primary := by
    intro main hmain
    obtain ⟨hfirst, hfirst'⟩ := primary main hmain
    obtain ⟨id, hid, found⟩ := exists_head?_entryPoints hfirst
    obtain ⟨id', hid', found'⟩ := exists_head?_entryPoints hfirst'
    exact ⟨id, id', hid, found, hid', found'⟩

/-- Rules with distinct names that are the same but for their order have trees that are the same but for the
order of their entry rules, or faults of the same kind. -/
theorem ofRules_reordered {rules rules' : List Rule} (same : Rules.Reordered rules rules')
    (options : Options) : Agree RuleError.SameKind (Reordered options) (Tree.ofRules rules options)
      (Tree.ofRules rules' options) := by
  have hrules : rules.isEmpty = rules'.isEmpty := by
    rw [Bool.eq_iff_iff, List.isEmpty_iff, List.isEmpty_iff]
    exact ⟨fun h => List.nil_perm.1 (h ▸ same.perm), fun h => List.perm_nil.1 (h ▸ same.perm)⟩
  unfold Tree.ofRules
  rw [hrules, same.ofEntry]
  split
  · exact .error .noRules
  · have hempty := same.emptyDefinition?
    cases hdefinition : Rules.emptyDefinition? rules with
    | some empty =>
      rw [hdefinition] at hempty
      obtain ⟨empty', hdefinition', _⟩ := exists_of_rel_some hempty
      rw [hdefinition']
      exact .error (.emptyDefinition _ _ _ _)
    | none =>
      rw [hdefinition] at hempty
      rw [eq_none_of_rel_none hempty]
      have hundefined := same.undefinedReference?
      cases hreference : Rules.undefinedReference? rules with
      | some undefined =>
        rw [hreference] at hundefined
        obtain ⟨undefined', hreference', _⟩ := exists_of_rel_some hundefined
        rw [hreference']
        exact .error (.undefinedReference _ _ _ _)
      | none =>
        rw [hreference] at hundefined
        rw [eq_none_of_rel_none hundefined]
        have hentries := same.entryNames options
        generalize Rules.entryNames rules options = entries at hentries ⊢
        generalize Rules.entryNames rules' options = entries' at hentries ⊢
        cases hentries with
        | error kinds => exact .error kinds
        | ok orders =>
          obtain ⟨perm, primary⟩ := orders
          refine .ok (.of_pairings (closed_ofEntries _ _) (closed_ofEntries _ _) rfl ?_ ?_ ?_)
          · rw [entryNames_ofEntries, entryNames_ofEntries]
            exact perm
          · intro name hname
            rw [entryNames_ofEntries] at hname
            exact exists_pairing _ hname (perm.mem_iff.1 hname)
          · rw [entryNames_ofEntries, entryNames_ofEntries]
            exact primary

/-- Terms in brackets, and apart from them a rule for names. -/
def termRules : List Rule := bracketRules ++ [⟨"name", [[.symbol "named" ["text"] false]]⟩]

/-- The entry rules of the reversed rules are reversed, and nothing else changes. -/
theorem ofRules_reordered_terms :
    Rules.Reordered termRules termRules.reverse ∧ ∃ tree other,
      Tree.ofRules termRules .initial = .ok tree ∧ Tree.ofRules termRules.reverse .initial = .ok other ∧
      tree.entryNames = ["term", "name"] ∧ other.entryNames = ["name", "term"] ∧
      Reordered .initial tree other :=
  have same : Rules.Reordered termRules termRules.reverse := ⟨List.Perm.swap _ _ [], by decide⟩
  ⟨same, _, _, rfl, rfl, by decide +kernel, by decide +kernel,
    (ofRules_reordered same .initial).of_ok⟩

end Tree

end ChainGrammar
