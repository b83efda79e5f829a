import ChainGrammar.Proofs.Derivation.Exactness
import ChainGrammar.Proofs.Position.Limit

/-!
# Chains under a higher limit

The nesting limit only truncates (`Api.limitTruncates`).  What a chain can do under a limit it can do under
every higher one.  All that chains accept is derived freely, and conversely everything that is derived freely
is accepted under every limit that is high enough: a free derivation is finite, so the way down to a place in
it cuts the path back only finitely often, and `Derives.exists_room` counts how often.
-/

set_option autoImplicit false

namespace ChainGrammar

/-! ## Derivations in settings and without -/

section Derivations

variable {rules : List Rule} {goal : Goal} {calls : List Call}

/-- A derivation can be read in other settings where rules may occur in them alike. -/
theorem Derives.map {ς ς' : Type} {into : ς → String → ς → Prop} {into' : ς' → String → ς' → Prop}
    (f : ς → ς') (same : ∀ setting name inner, into setting name inner → into' (f setting) name (f inner))
    {setting : ς} (h : Derives rules into setting goal calls) :
    Derives rules into' (f setting) goal calls := by
  induction h with
  | rule found member _ ih => exact .rule found member ih
  | done => exact .done
  | symbol fits _ ih => exact .symbol fits ih
  | reference admits _ _ occur yields => exact .reference admits occur yields
  | skip omissible _ ih => exact .skip omissible ih
  | enough => exact .enough
  | another enters _ _ yields occur => exact .another (same _ _ _ enters) yields occur

/-- What is derived under a limit is derived freely. -/
theorem DerivesWithin.freely {limit : Nat} {entry : String} (h : DerivesWithin rules limit entry calls) :
    DerivesFreely rules entry calls :=
  Derives.map (fun _ => ()) (fun _ _ _ _ => trivial) h

/-- Every rule may occur in a setting that has not reached the limit, and goes at most one deeper. -/
theorem Setting.exists_into {limit : Nat} {setting : Setting} (below : setting.depth + 1 ≤ limit)
    (name : String) : ∃ inner, Setting.Into limit setting name inner ∧ inner.depth ≤ setting.depth + 1 := by
  obtain ⟨path, depth⟩ := setting
  by_cases on : name ∈ path
  · obtain ⟨newer, older, rfl, first⟩ := List.eq_append_cons_of_mem on
    exact ⟨_, .cut first below, Nat.le_refl _⟩
  · exact ⟨_, .extend on, Nat.le_succ _⟩

/-- A free derivation fits into every setting that has enough room left below the limit. -/
theorem Derives.exists_room {ς : Type} {into : ς → String → ς → Prop} {setting : ς}
    (h : Derives rules into setting goal calls) :
    ∃ room, ∀ (limit : Nat) (place : Setting), place.depth + room ≤ limit →
      Derives rules (Setting.Into limit) place goal calls := by
  induction h with
  | rule found member _ ih =>
    obtain ⟨room, fits⟩ := ih
    exact ⟨room, fun limit place enough => .rule found member (fits limit place enough)⟩
  | done => exact ⟨0, fun _ _ _ => .done⟩
  | symbol arguments _ ih =>
    obtain ⟨room, fits⟩ := ih
    exact ⟨room, fun limit place enough => .symbol arguments (fits limit place enough)⟩
  | reference admits _ _ occur yields =>
    obtain ⟨room₁, fits₁⟩ := occur
    obtain ⟨room₂, fits₂⟩ := yields
    exact ⟨max room₁ room₂, fun limit place enough =>
      .reference admits (fits₁ limit place (by omega)) (fits₂ limit place (by omega))⟩
  | skip omissible _ ih =>
    obtain ⟨room, fits⟩ := ih
    exact ⟨room, fun limit place enough => .skip omissible (fits limit place enough)⟩
  | enough => exact ⟨0, fun _ _ _ => .enough⟩
  | @another _ _ name _ _ _ _ _ _ yields occur =>
    -- the occurrence itself may go one deeper, those after it start from the same place
    obtain ⟨room₁, fits₁⟩ := yields
    obtain ⟨room₂, fits₂⟩ := occur
    refine ⟨max (room₁ + 1) room₂, fun limit place enough => ?_⟩
    obtain ⟨inner, enters, depth⟩ :=
      Setting.exists_into (by omega : place.depth + 1 ≤ limit) name
    exact .another enters (fits₁ limit inner (by omega)) (fits₂ limit place (by omega))

/-- What is derived freely is derived within every limit that is high enough. -/
theorem DerivesFreely.exists_within {entry : String} (h : DerivesFreely rules entry calls) :
    ∃ least, ∀ limit, least ≤ limit → DerivesWithin rules limit entry calls := by
  obtain ⟨room, fits⟩ := Derives.exists_room h
  exact ⟨room, fun limit enough => fits limit ⟨[entry], 0⟩ (by rwa [Nat.zero_add])⟩

end Derivations

/-! ## Chains -/

variable {σ τ : Type}

/-- The API with another limit on nested back-edges. -/
def Api.limited (api : Api σ τ) (depth : Nat) : Api σ τ := ⟨api.tree.limited depth, api.hooks⟩

/-- The same position under another limit on nested back-edges. -/
def Chain.limited (chain : Chain σ τ) (depth : Nat) : Chain σ τ :=
  { chain with api := chain.api.limited depth }

namespace Chain

variable {chain : Chain σ τ} {entry depth : Nat} {done : List Call}

/-- Without back-edges a call does the same under every limit. -/
theorem call_limited (closed : chain.api.tree.Closed) (flat : chain.api.tree.Flat)
    (matches_ : chain.Matches entry done) (method : String) (args : List Value) (state : σ) :
    ((chain.limited depth).call method args).run state =
      Prod.map (Except.map fun after => after.limited depth) id ((chain.call method args).run state) := by
  have hmatching : (chain.limited depth).matching method = chain.matching method := rfl
  have hcallable : (chain.limited depth).callable method args.length =
      chain.callable method args.length := rfl
  cases candidates : chain.matching method with
  | nil =>
    rw [call_of_matching_nil candidates, call_of_matching_nil (hmatching.trans candidates)]
    rfl
  | cons candidate rest =>
    cases takers : chain.callable method args.length with
    | nil =>
      rw [call_of_callable_nil candidates takers,
        call_of_callable_nil (hmatching.trans candidates) (hcallable.trans takers)]
      rfl
    | cons item others =>
      have hafter : chain.position.after (chain.api.tree.limited depth) (item :: others) =
          chain.position.after chain.api.tree (item :: others) := by
        refine Position.after_limited closed flat matches_.table fun other hother => ?_
        rw [← takers] at hother
        exact matches_.fits_of_mem_callable hother
      have hhook : (chain.limited depth).api.hooks.call ((chain.limited depth).invocation item args)
          (chain.limited depth).target =
          chain.api.hooks.call (chain.invocation item args) chain.target := rfl
      rw [call_of_cons takers, call_of_cons (hcallable.trans takers), hhook]
      rcases (chain.api.hooks.call (chain.invocation item args) chain.target).run state with
        ⟨reason | target, state'⟩
      · rfl
      · have hposition : (chain.limited depth).position.after (chain.limited depth).api.tree
            (item :: others) = chain.position.after chain.api.tree (item :: others) := hafter
        simp only [hposition]
        rfl

/-- Without back-edges calls do the same under every limit. -/
theorem callAll_limited (closed : chain.api.tree.Closed) (flat : chain.api.tree.Flat)
    (matches_ : chain.Matches entry done) (calls : List Call) (state : σ) :
    ((chain.limited depth).callAll calls).run state =
      Prod.map (Except.map fun after => after.limited depth) id ((chain.callAll calls).run state) := by
  induction calls generalizing chain done state with
  | nil => rfl
  | cons next rest ih =>
    rw [callAll_cons, callAll_cons, call_limited closed flat matches_]
    cases hcall : (chain.call next.method next.args).run state with
    | mk answer state' =>
      cases answer with
      | error error => rfl
      | ok after =>
        obtain ⟨hapi, _⟩ := call_ok hcall
        exact ih (hapi ▸ closed) (hapi ▸ flat) (matches_.call closed hcall) state'

end Chain

namespace Api

variable {api : Api σ τ} {rules : List Rule} {options : Options} {entry : String}

/-- Under every limit the entry rule of the name is shown at the node. -/
structure EntersAt (api : Api σ τ) (rules : List Rule) (entry : String) (point : Nat) : Prop where
  closed : api.tree.Closed
  inside : point < api.tree.size
  proper : ∀ rule ∈ rules, ∀ definition ∈ rule.definitions, ∀ segment ∈ definition, segment.Proper
  found : ∀ depth, (api.limited depth).tree.entryPoint? entry = some point
  shown : ∀ depth, (api.limited depth).tree.ShowsEntry rules entry point

/-- Under every limit an entry rule is shown at the same node. -/
theorem exists_entersAt (authored : Rules.Authored rules)
    (built : Tree.ofRules rules options = .ok api.tree) (hentry : entry ∈ api.tree.entryNames) :
    ∃ point, api.EntersAt rules entry point := by
  have closed := Tree.closed_ofRules built
  have each : ∀ depth, ∃ point, api.tree.entryPoint? entry = some point ∧ point ∈ api.tree.entryPoints ∧
      (api.limited depth).tree.ShowsEntry rules entry point := by
    intro depth
    obtain ⟨_, _, names, hnames, laid⟩ := Tree.ofRules_ok (Tree.ofRules_limited depth built)
    exact Tree.exists_showsEntry (Tree.showsEntries (authored.compilable built) hnames laid) hentry
  -- the entry points do not depend on the limit, so the node found under one is that under any other
  obtain ⟨point, hid, hpoints, _⟩ := each 0
  refine ⟨point, closed, closed.lt_size_of_mem_entryPoints hpoints, authored.proper, fun _ => hid, ?_⟩
  intro depth
  obtain ⟨other, hother, _, shows_⟩ := each depth
  obtain rfl := Option.some.inj (hother.symm.trans hid)
  exact shows_

variable {point depth shallow deep : Nat} {calls : List Call} {state state' : σ} {chain : Chain σ τ}

/-- Calls that succeed under a limit succeed under a higher one, and leave at least as much open. -/
theorem EntersAt.deepen (enters : api.EntersAt rules entry point) (willing : api.hooks.Willing)
    (higher : shallow ≤ deep)
    (plays : (api.limited shallow).play? entry calls state = some (.ok chain, state')) :
    ∃ chain' state'', (api.limited deep).play? entry calls state = some (.ok chain', state'') ∧
      chain.methods ⊆ chain'.methods ∧ (chain.isComplete = true → chain'.isComplete = true) := by
  have willing' : (api.limited deep).hooks.Willing := willing
  obtain ⟨hapi, hchain, plain, hplain⟩ :=
    matches_of_play? (enters.closed.limited shallow) (enters.found shallow) enters.inside plays
  -- the plain machine takes the calls over to the higher limit, and the chain there follows it
  obtain ⟨chain', state'', plays'⟩ := exists_play? (enters.closed.limited deep) willing'
    (enters.found deep) enters.inside (hplain.deepen higher) state
  obtain ⟨hapi', hchain', _⟩ :=
    matches_of_play? (enters.closed.limited deep) (enters.found deep) enters.inside plays'
  refine ⟨chain', state'', plays', fun name hname => ?_, fun complete => ?_⟩
  · obtain ⟨node, stack, ⟨hmethod, live⟩, hlabel⟩ := (hchain.mem_methods_iff name).1 hname
    rw [hapi] at hmethod live hlabel
    refine (hchain'.mem_methods_iff name).2 ⟨node, stack, ?_⟩
    rw [hapi']
    exact ⟨⟨hmethod, live.deepen higher⟩, hlabel⟩
  · have ended := hchain.complete.1 complete
    rw [hapi] at ended
    refine hchain'.complete.2 ?_
    rw [hapi']
    exact ended.deepen higher

/-- What is accepted under a limit is what can be derived within it. -/
theorem EntersAt.accepts_iff (enters : api.EntersAt rules entry point) (willing : api.hooks.Willing)
    (depth : Nat) (calls : List Call) (state : σ) :
    (∃ chain state', (api.limited depth).play? entry calls state = some (.ok chain, state') ∧
      chain.isComplete = true) ↔ DerivesWithin rules (max depth 1) entry calls := by
  have willing' : (api.limited depth).hooks.Willing := willing
  have hderives : Plain.Complete (api.limited depth).tree point calls ↔
      DerivesWithin rules (max depth 1) entry calls :=
    Plain.complete_iff_derives (enters.shown depth) enters.proper
  rw [← hderives]
  constructor
  · rintro ⟨chain, state', plays, complete⟩
    obtain ⟨hapi, hchain, _⟩ :=
      matches_of_play? (enters.closed.limited depth) (enters.found depth) enters.inside plays
    rw [← hapi]
    exact hchain.complete.1 complete
  · intro ended
    obtain ⟨chain, state', plays⟩ := exists_play? (enters.closed.limited depth) willing'
      (enters.found depth) enters.inside ended state
    obtain ⟨hapi, hchain, _⟩ :=
      matches_of_play? (enters.closed.limited depth) (enters.found depth) enters.inside plays
    rw [← hapi] at ended
    exact ⟨chain, state', plays, hchain.complete.2 ended⟩

/-- Without back-edges the same comes of calls under every limit. -/
theorem EntersAt.play?_limited (enters : api.EntersAt rules entry point) (flat : api.tree.Flat)
    (depth : Nat) (calls : List Call) (state : σ) :
    (api.limited depth).play? entry calls state = (api.play? entry calls state).map
      (Prod.map (Except.map fun chain => chain.limited depth) id) := by
  have found : api.tree.entryPoint? entry = some point := enters.found 0
  have hstart : ((api.limited depth).chainAt point).run state =
      (((api.chainAt point).run state).1.limited depth, ((api.chainAt point).run state).2) := by
    have hposition := Position.start_limited depth enters.closed flat enters.inside
    rw [Chain.run_chainAt, Chain.run_chainAt, limited, hposition]
    rfl
  obtain ⟨hapi, hmatches⟩ := Chain.matches_chainAt enters.closed enters.inside state
  rw [play?_eq (api.limited depth) (enters.found depth), play?_eq api found, hstart, Option.map_some,
    Chain.callAll_limited (hapi ▸ enters.closed) (hapi ▸ flat) hmatches]

/-- The limit only truncates what a chain of an entry rule can do. -/
structure LimitTruncates (api : Api σ τ) (rules : List Rule) (options : Options) (entry : String) :
    Prop where
  /-- Under another limit the rules have the same tree, with that limit. -/
  built : ∀ depth, Tree.ofRules rules (options.withMaxDepth depth) = .ok (api.limited depth).tree
  /-- Calls that succeed under a limit succeed under a higher one, which offers at least the same methods and
  lets the chain end where the lower one does. -/
  deeper : ∀ shallow deep, shallow ≤ deep → ∀ calls state chain state',
    (api.limited shallow).play? entry calls state = some (.ok chain, state') →
      ∃ chain' state'', (api.limited deep).play? entry calls state = some (.ok chain', state'') ∧
        chain.methods ⊆ chain'.methods ∧ (chain.isComplete = true → chain'.isComplete = true)
  /-- What is accepted under any limit is derived freely. -/
  derivable : ∀ depth calls state chain state',
    (api.limited depth).play? entry calls state = some (.ok chain, state') → chain.isComplete = true →
      DerivesFreely rules entry calls
  /-- What is derived freely is accepted under every limit that is high enough. -/
  reached : ∀ calls, DerivesFreely rules entry calls → ∃ least, ∀ depth, least ≤ depth → ∀ state,
    ∃ chain state', (api.limited depth).play? entry calls state = some (.ok chain, state') ∧
      chain.isComplete = true
  /-- Without back-edges everything is the same under every limit. -/
  flat : api.tree.Flat → ∀ depth calls state, (api.limited depth).play? entry calls state =
    (api.play? entry calls state).map
      (Prod.map (Except.map fun chain => chain.limited depth) id)

/-- Whatever rules have been written, if they have a tree and the hooks accept every call, the limit on
nested back-edges only truncates. -/
theorem limitTruncates (authored : Rules.Authored rules)
    (built : Tree.ofRules rules options = .ok api.tree) (willing : api.hooks.Willing)
    (hentry : entry ∈ api.tree.entryNames) : api.LimitTruncates rules options entry := by
  obtain ⟨point, enters⟩ := exists_entersAt authored built hentry
  refine ⟨fun depth => Tree.ofRules_limited depth built, ?_, ?_, ?_, ?_⟩
  · intro shallow deep higher calls state chain state' plays
    exact enters.deepen willing higher plays
  · intro depth calls state chain state' plays complete
    exact ((enters.accepts_iff willing depth calls state).1 ⟨chain, state', plays, complete⟩).freely
  · intro calls derives
    obtain ⟨least, within⟩ := derives.exists_within
    refine ⟨least, fun depth high state => ?_⟩
    exact (enters.accepts_iff willing depth calls state).2
      (within (max depth 1) (Nat.le_trans high (Nat.le_max_left _ _)))
  · exact enters.play?_limited

/-- A list of named items, in which no rule occurs within itself. -/
def listRules : List Rule :=
  [⟨"list", [[.reference "item" false .unbounded]]⟩, ⟨"item", [[.symbol "add" ["name"] false]]⟩]

/-- How the rules for a list of items are written. -/
def listEvents : List Session.Event :=
  [.openRule "list", .edit 0 (.reference "item"), .edit 0 (.repeated (-1)), .edit 0 (.rule "item"),
    .edit 0 (.symbol "add" ["name"]), .edit 0 .finish]

/-- The tree of the rules for a list of items. -/
def listTree : Tree := Tree.ofEntries 64 [Unfolding.ofEntry listRules "list"]

/-- The limit only truncates nested brackets, and to a list of items it makes no difference. -/
theorem limitTruncates_brackets :
    Rules.Authored bracketRules ∧ Tree.ofRules bracketRules .initial = .ok bracketTree ∧
      (Api.mk bracketTree (.transcript : Hooks Unit Transcript)).LimitTruncates bracketRules .initial
        "term" ∧
      Rules.Authored listRules ∧ Tree.ofRules listRules .initial = .ok listTree ∧ listTree.Flat ∧
      (Api.mk listTree (.transcript : Hooks Unit Transcript)).LimitTruncates listRules .initial "list" :=
  have listed : Rules.Authored listRules := Rules.authored_run "" listEvents
  ⟨bracketRules_authored, bracketTree_built,
    limitTruncates bracketRules_authored bracketTree_built (fun _ _ _ => ⟨_, _, rfl⟩)
      (by decide +kernel : "term" ∈ bracketTree.entryNames),
    listed, rfl, .of_nodes (by decide +kernel),
    limitTruncates listed rfl (fun _ _ _ => ⟨_, _, rfl⟩)
      (by decide +kernel : "list" ∈ listTree.entryNames)⟩

end Api

end ChainGrammar
