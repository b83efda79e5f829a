import ChainGrammar.Proofs.Chain.Calls
import ChainGrammar.Proofs.Derivation.Completeness
import ChainGrammar.Proofs.Derivation.Soundness

/-!
# Chains accept what the rules derive

The calls that take a chain from the beginning of an entry rule to where it may end are exactly those
that can be derived from that rule on the rules as they have been written (`Api.accepts_iff_derives`).
The chain matches the plain machine, the plain machine follows every derivation, and its runs split into
derivations.
-/

set_option autoImplicit false

namespace ChainGrammar

variable {tree : Tree} {rules : List Rule} {entry : String} {id : Nat} {calls : List Call}

/-- What is derived from an entry rule with nothing around it. -/
theorem derivesWithin_of_derives {limit : Nat}
    (h : Derives rules (Setting.Into limit) ⟨[], 0⟩
      (.segments [.reference entry false .once]) calls) :
    DerivesWithin rules limit entry calls := by
  cases h with
  | @reference _ _ _ _ _ count first others admits occur yields =>
    obtain rfl : count = 1 := admits
    cases yields
    cases occur with
    | @another _ inner _ _ first' others' enters yields' none =>
      cases none
      have hinner : inner = ⟨[entry], 0⟩ := by
        generalize hpath : ([] : List String) = path at enters
        cases enters with
        | extend => rw [← hpath]
        | cut => exact absurd hpath.symm (by simp)
      subst hinner
      rw [List.append_nil, List.append_nil]
      exact yields'
  | skip omissible => simp [Segment.isOptional, Segment.isAnchor] at omissible

/-- The plain machine gets from an entry rule to its end by the calls that the rule derives. -/
theorem Plain.complete_iff_derives (shows_ : tree.ShowsEntry rules entry id)
    (proper : ∀ rule ∈ rules, ∀ definition ∈ rule.definitions, ∀ segment ∈ definition, segment.Proper) :
    Plain.Complete tree id calls ↔ DerivesWithin rules tree.maxDepth entry calls := by
  have hopens : tree.opens? id = some id :=
    Tree.opens?_eq_some_iff.2 (.inl ⟨⟨_, _, _, shows_.label⟩, rfl⟩)
  have hlast : tree.next? id = none := by
    rw [Tree.next?, shows_.last]
    rfl
  have hdepth : Frame.depthOf tree [⟨id, id, 1⟩] = 0 := by
    rw [Frame.depthOf_cons, shows_.label]
    rfl
  rw [Plain.complete_iff_runs]
  constructor
  · intro runs
    have hshown : tree.ShowsDefinition rules [] "" [.reference entry false .once] [id] :=
      .unfolded List.not_mem_nil shows_.label shows_.inside (by rw [shows_.last]; exact .done)
    have hproper : ∀ segment ∈ [Segment.reference entry false .once], segment.Proper := by
      intro segment hsegment
      obtain rfl := List.mem_singleton.1 hsegment
      trivial
    obtain ⟨first, later, rfl, hfirst, hlater⟩ :=
      Plain.derived_of_runs proper runs [] [] "" _ .bottom hproper hshown
    cases hlater
    rw [List.append_nil]
    exact derivesWithin_of_derives hfirst
  · intro derives
    have hrunnable := Plain.runnable_of_derives derives [] ⟨id, id, 1⟩ [] []
      (.cons List.not_mem_nil shows_.inside .nil) (by rw [hdepth]; rfl)
      (by rw [hdepth]; exact Nat.zero_le _)
      fun last hends => .silent (.leave hends) (.silent (.finish hlast) .complete)
    obtain ⟨alternative, halternative, runs⟩ := hrunnable
    rw [List.append_nil] at runs
    exact .silent (.descend (Tree.opens?_eq_some_iff.1 hopens) (by rw [hdepth]; exact Nat.zero_le _)
      halternative) runs

/-- The entry rule of a name is shown at its node. -/
theorem Tree.exists_showsEntry {names : List String}
    (shown : List.Forall₂ (tree.ShowsEntry rules) names (tree.children 0))
    (hentry : entry ∈ tree.entryNames) :
    ∃ id, tree.entryPoint? entry = some id ∧ id ∈ tree.entryPoints ∧ tree.ShowsEntry rules entry id := by
  obtain ⟨first, hfirst, hname⟩ := List.mem_map.1 hentry
  have hsome : (tree.entryPoint? entry).isSome = true :=
    List.find?_isSome.2 ⟨first, hfirst, by simp [hname]⟩
  obtain ⟨id, hid⟩ := Option.isSome_iff_exists.1 hsome
  have hmem : id ∈ tree.entryPoints := List.mem_of_find?_eq_some hid
  refine ⟨id, hid, hmem, ?_⟩
  have hlabel : (tree.label id).name = entry := by simpa using List.find?_some hid
  obtain ⟨i, hi, hget⟩ := List.mem_iff_getElem.1 hmem
  have hnames : i < names.length := shown.length_eq ▸ hi
  have hshows : tree.ShowsEntry rules (names.get ⟨i, hnames⟩) id := hget ▸ shown.get hnames hi
  rw [hshows.label] at hlabel
  exact hlabel ▸ hshows

/-- Whatever rules have been written, if they have a tree and the hooks accept every call, the calls that
a chain accepts from an entry rule to where it may end are those that the rule derives. -/
theorem Api.accepts_iff_derives {σ τ : Type} {api : Api σ τ} {options : Options}
    (authored : Rules.Authored rules) (built : Tree.ofRules rules options = .ok api.tree)
    (willing : api.hooks.Willing) (hentry : entry ∈ api.tree.entryNames) :
    ∃ begin : StateM σ (Chain σ τ), api.startAt? entry = some begin ∧
      ∀ (calls : List Call) (state : σ),
        (∃ chain state', (begin >>= fun chain => chain.callAll calls).run state =
            (.ok chain, state') ∧ chain.isComplete = true) ↔
          DerivesWithin rules options.maxDepth entry calls := by
  have closed := Tree.closed_ofRules built
  have proper : ∀ rule ∈ rules, ∀ definition ∈ rule.definitions, ∀ segment ∈ definition,
      segment.Proper := by
    intro rule hrule definition hdefinition
    obtain ⟨_, ordered⟩ := (authored.wellFormed.each rule hrule).ordered definition hdefinition
    exact ordered.proper
  obtain ⟨_, _, names, hnames, laid⟩ := Tree.ofRules_ok built
  have hlimit : api.tree.maxDepth = options.maxDepth := by
    rw [laid]
    rfl
  obtain ⟨id, hid, hpoint, shows_⟩ := Tree.exists_showsEntry
    (Tree.showsEntries (authored.compilable built) hnames laid) hentry
  refine ⟨api.chainAt id, by rw [Api.startAt?, hid]; rfl, fun calls state => ?_⟩
  obtain ⟨hapi, hmatches⟩ := Chain.matches_chainAt closed
    (closed.lt_size_of_mem_entryPoints hpoint) state
  have hrun : ((api.chainAt id >>= fun chain => chain.callAll calls).run state) =
      (((api.chainAt id).run state).1.callAll calls).run ((api.chainAt id).run state).2 := rfl
  rw [hrun, ← hlimit, ← Plain.complete_iff_derives shows_ proper]
  exact hmatches.callAll_complete_iff closed willing _

/-- A chain accepts exactly the terms in brackets that their rule derives. -/
theorem Api.accepts_iff_derives_brackets :
    Rules.Authored bracketRules ∧ Tree.ofRules bracketRules .initial = .ok bracketTree ∧
      ∃ begin : StateM Unit (Chain Unit Transcript),
        (Api.mk bracketTree .transcript).startAt? "term" = some begin ∧
        ∀ (calls : List Call) (state : Unit),
          (∃ chain state', (begin >>= fun chain => chain.callAll calls).run state =
              (.ok chain, state') ∧ chain.isComplete = true) ↔
            DerivesWithin bracketRules 64 "term" calls :=
  have hentry : "term" ∈ bracketTree.entryNames := by decide +kernel
  ⟨bracketRules_authored, bracketTree_built,
    @Api.accepts_iff_derives bracketRules "term" Unit Transcript ⟨bracketTree, .transcript⟩ .initial
      bracketRules_authored bracketTree_built (fun _ _ _ => ⟨_, _, rfl⟩) hentry⟩

end ChainGrammar
