import ChainGrammar.Chain.Basic
import ChainGrammar.Proofs.Rule.Faults
import ChainGrammar.Proofs.Tree.Assembly
import ChainGrammar.Proofs.Tree.Pairing

/-!
# What comes of a list of rules

A list of rules has a tree, or it has a fault, and which of the two, which fault, and what the fault names is
determined by the rules and the main rule (`Rules.Outcome`).  Nothing else can come of them
(`Tree.ofRules_eq_iff`), so each fault is reported for exactly its reason, and where there is no reason there is a
tree (`Tree.outcomes_exact`).

A tree has entry rules, so a chain can be begun: at the first entry rule, and at each by its name.
-/

set_option autoImplicit false

namespace ChainGrammar

namespace Rules

variable {rules : List Rule} {options : Options}

/-- There are rules, none has an empty definition, and every reference is to one of them. -/
structure Checked (rules : List Rule) : Prop where
  nonempty : rules ≠ []
  full : Full rules
  resolved : Resolved rules

/-- What comes of a list of rules, with its reason. -/
inductive Outcome (rules : List Rule) (options : Options) : Except RuleError Tree → Prop where
  | noRules (none : rules = []) : Outcome rules options (.error .noRules)
  | emptyDefinition {name : String} {index : Nat} (first : FirstEmpty rules name index) :
      Outcome rules options (.error (.emptyDefinition name index))
  | undefinedReference {name target : String} (full : Full rules) (first : FirstUndefined rules name target) :
      Outcome rules options (.error (.undefinedReference name target))
  | noEntryPoint (checked : Checked rules) (linked : ∀ name ∈ names rules, ∃ user, Links rules user name) :
      Outcome rules options (.error (.noEntryPoint (cycle rules)))
  | undefinedMainRule {name : String} (checked : Checked rules) (top : ∃ name, IsTop rules name)
      (main : options.mainRule = some name) (undefined : name ∉ names rules) :
      Outcome rules options (.error (.undefinedMainRule name))
  | tree (checked : Checked rules) (top : ∃ name, IsTop rules name)
      (defined : ∀ main, options.mainRule = some main → main ∈ names rules) :
      Outcome rules options (.ok (Tree.ofEntries options.maxDepth
        ((options.mainRule.toList ++ otherEntries rules options).map (Unfolding.ofEntry rules))))

/-- Rules are linked to, all of them, or there is a top rule. -/
theorem linked_or_top (rules : List Rule) :
    (∀ name ∈ names rules, ∃ user, Links rules user name) ∨ ∃ name, IsTop rules name := by
  by_cases linked : ∀ name ∈ names rules, ∃ user, Links rules user name
  · exact .inl linked
  · simp only [not_forall, not_exists] at linked
    obtain ⟨name, hname, unlinked⟩ := linked
    exact .inr ⟨name, hname, unlinked⟩

/-- Something comes of every list of rules. -/
theorem exists_outcome (rules : List Rule) (options : Options) : ∃ result, Outcome rules options result := by
  by_cases nonempty : rules = []
  · exact ⟨_, .noRules nonempty⟩
  cases hempty : emptyDefinition? rules with
  | some fault => exact ⟨_, .emptyDefinition (emptyDefinition?_eq_some_iff.1 hempty)⟩
  | none =>
    have full := emptyDefinition?_eq_none_iff.1 hempty
    cases hundefined : undefinedReference? rules with
    | some fault => exact ⟨_, .undefinedReference full (undefinedReference?_eq_some_iff.1 hundefined)⟩
    | none =>
      have checked : Checked rules := ⟨nonempty, full, resolved_iff.2 hundefined⟩
      rcases linked_or_top rules with linked | top
      · exact ⟨_, .noEntryPoint checked linked⟩
      by_cases defined : ∀ main, options.mainRule = some main → main ∈ names rules
      · exact ⟨_, .tree checked top defined⟩
      · simp only [not_forall] at defined
        obtain ⟨main, hmain, undefined⟩ := defined
        exact ⟨_, .undefinedMainRule checked top hmain undefined⟩

end Rules

namespace Tree

variable {rules : List Rule} {options : Options} {tree : Tree}

open Rules (Outcome Checked)

/-- After the checks the entry rules decide. -/
theorem ofRules_of_checked (checked : Checked rules) (options : Options) :
    ofRules rules options = (Rules.entryNames rules options).map fun entries =>
      ofEntries options.maxDepth (entries.map (Unfolding.ofEntry rules)) := by
  unfold ofRules
  simp only [List.isEmpty_iff, if_neg checked.nonempty, Rules.emptyDefinition?_eq_none_iff.2 checked.full,
    Rules.resolved_iff.1 checked.resolved]
  cases Rules.entryNames rules options <;> rfl

/-- What has a reason to come of the rules comes of them. -/
theorem ofRules_of_outcome {result : Except RuleError Tree} (h : Outcome rules options result) :
    ofRules rules options = result := by
  cases h with
  | noRules none => simp [ofRules, none]
  | emptyDefinition first =>
    have nonempty : rules ≠ [] := by
      obtain ⟨before, rule, behind, rfl, _⟩ := first
      simp
    unfold ofRules
    simp only [List.isEmpty_iff, if_neg nonempty, Rules.emptyDefinition?_eq_some_iff.2 first]
  | undefinedReference full first =>
    have nonempty : rules ≠ [] := by
      obtain ⟨before, rule, behind, rfl, _⟩ := first
      simp
    unfold ofRules
    simp only [List.isEmpty_iff, if_neg nonempty, Rules.emptyDefinition?_eq_none_iff.2 full,
      Rules.undefinedReference?_eq_some_iff.2 first]
  | noEntryPoint checked linked =>
    rw [ofRules_of_checked checked, Rules.entryNames_of_linked options linked, Except.map]
  | undefinedMainRule checked top main undefined =>
    rw [ofRules_of_checked checked, Rules.entryNames_of_undefined top main undefined, Except.map]
  | tree checked top defined => rw [ofRules_of_checked checked, Rules.entryNames_of_defined top defined, Except.map]

/-- Exactly what has a reason to come of the rules comes of them. -/
theorem ofRules_eq_iff {result : Except RuleError Tree} :
    ofRules rules options = result ↔ Outcome rules options result := by
  refine ⟨?_, ofRules_of_outcome⟩
  rintro rfl
  obtain ⟨result, outcome⟩ := Rules.exists_outcome rules options
  rwa [ofRules_of_outcome outcome]

/-! ## The entry rules of a tree -/

/-- The tree of the rules can be entered at the main rule and at the top rules, and it is put together without
fault. -/
structure Enterable (rules : List Rule) (options : Options) (tree : Tree) : Prop where
  /-- The main rule comes first, and then the other top rules in authoring order. -/
  names : ∃ others, tree.entryNames = options.mainRule.toList ++ others ∧
    others.Sublist (Rules.names rules) ∧
    ∀ name, name ∈ others ↔ Rules.IsTop rules name ∧ options.mainRule ≠ some name
  nodup : tree.entryNames.Nodup
  nonempty : tree.entryNames ≠ []
  /-- Attaching the entry rules ends with the nodes of the tree, and no step of it fails. -/
  attaches : ∃ entries : List Rule, Rules.names entries = tree.entryNames ∧ entries ⊆ rules ∧
    (∃ steps, Assembly.runFor rules steps .bare (entries.map .entry) = .ok (⟨tree.nodes.toList, []⟩, [])) ∧
    ∀ steps, ∃ now agenda, Assembly.runFor rules steps .bare (entries.map .entry) = .ok (now, agenda)
  starts : ∀ {σ τ : Type} (hooks : Hooks σ τ), (Api.mk tree hooks).start?.isSome = true ∧
    ∀ name, ((Api.mk tree hooks).startAt? name).isSome = true ↔ name ∈ tree.entryNames

/-- Names of rules are the names of a list of rules. -/
theorem exists_names {names : List String} (h : names ⊆ Rules.names rules) :
    ∃ entries : List Rule, Rules.names entries = names ∧ entries ⊆ rules := by
  induction names with
  | nil => exact ⟨[], rfl, List.nil_subset _⟩
  | cons name names ih =>
    obtain ⟨hname, hnames⟩ := List.cons_subset.1 h
    obtain ⟨rule, hrule, rfl⟩ := List.mem_map.1 hname
    obtain ⟨entries, rfl, hentries⟩ := ih hnames
    exact ⟨rule :: entries, rfl, List.cons_subset.2 ⟨hrule, hentries⟩⟩

/-- A chain begins at an entry rule if there is one, and at the one of a name if there is one. -/
theorem starts_of_entryNames (tree : Tree) {σ τ : Type} (hooks : Hooks σ τ) (nonempty : tree.entryNames ≠ []) :
    (Api.mk tree hooks).start?.isSome = true ∧
      ∀ name, ((Api.mk tree hooks).startAt? name).isSome = true ↔ name ∈ tree.entryNames := by
  constructor
  · cases hpoints : tree.entryPoints with
    | nil => exact absurd (by rw [entryNames, hpoints]; rfl) nonempty
    | cons first rest => simp [Api.start?, hpoints]
  · intro name
    simp [Api.startAt?, entryPoint?, entryNames]

theorem enterable_of_outcome (distinct : (Rules.names rules).Nodup) (h : Outcome rules options (.ok tree)) :
    tree.Enterable rules options := by
  cases h with
  | tree checked top defined =>
  have hnames : (ofEntries options.maxDepth ((options.mainRule.toList ++ Rules.otherEntries rules options).map
      (Unfolding.ofEntry rules))).entryNames = options.mainRule.toList ++ Rules.otherEntries rules options :=
    entryNames_ofEntries options.maxDepth _
  have nodup : (options.mainRule.toList ++ Rules.otherEntries rules options).Nodup := by
    rw [List.nodup_append]
    refine ⟨by cases options.mainRule <;> simp, distinct.sublist (Rules.otherEntries_sublist rules options), ?_⟩
    rintro main hmain other hother rfl
    exact (Rules.mem_otherEntries_iff.1 hother).2 (Option.mem_toList.1 hmain)
  have nonempty : options.mainRule.toList ++ Rules.otherEntries rules options ≠ [] := by
    obtain ⟨name, htop⟩ := top
    by_cases hmain : options.mainRule = some name
    · simp [hmain]
    · exact List.append_ne_nil_of_right_ne_nil _ (List.ne_nil_of_mem (Rules.mem_otherEntries_iff.2 ⟨htop, hmain⟩))
  have known : options.mainRule.toList ++ Rules.otherEntries rules options ⊆ Rules.names rules := by
    apply List.append_subset.2
    exact ⟨fun main hmain => defined main (Option.mem_toList.1 hmain),
      (Rules.otherEntries_sublist rules options).subset⟩
  obtain ⟨entries, hentries, part⟩ := exists_names known
  refine {
    names := ⟨_, hnames, Rules.otherEntries_sublist rules options, fun _ => Rules.mem_otherEntries_iff⟩
    nodup := by rwa [hnames]
    nonempty := by rwa [hnames]
    attaches := ⟨entries, hentries.trans hnames.symm, part, ?_, fun steps => ?_⟩
    starts := fun hooks => starts_of_entryNames _ hooks (by rwa [hnames]) }
  · obtain ⟨steps, settled⟩ := Assembly.settles_entries distinct checked.resolved part options.maxDepth
    refine ⟨steps, ?_⟩
    rw [← hentries]
    simpa using settled []
  · obtain ⟨now, agenda, ran, _⟩ := (Assembly.sound_bare part).run checked.resolved steps
    exact ⟨now, agenda, ran⟩

/-! ## Each fault for its reason -/

/-- Each fault is reported exactly for its reason, and without a reason there is a tree. -/
structure Outcomes (rules : List Rule) (options : Options) : Prop where
  noRules : ofRules rules options = .error .noRules ↔ rules = []
  emptyDefinition (name : String) (index : Nat) :
    ofRules rules options = .error (.emptyDefinition name index) ↔ Rules.FirstEmpty rules name index
  undefinedReference (name target : String) :
    ofRules rules options = .error (.undefinedReference name target) ↔
      Rules.Full rules ∧ Rules.FirstUndefined rules name target
  noEntryPoint (path : List String) :
    ofRules rules options = .error (.noEntryPoint path) ↔
      Checked rules ∧ (∀ name ∈ Rules.names rules, ∃ user, Rules.Links rules user name) ∧ path = Rules.cycle rules
  undefinedMainRule (name : String) :
    ofRules rules options = .error (.undefinedMainRule name) ↔
      Checked rules ∧ (∃ top, Rules.IsTop rules top) ∧ options.mainRule = some name ∧ name ∉ Rules.names rules
  tree : (∃ tree, ofRules rules options = .ok tree) ↔
    Checked rules ∧ (∃ top, Rules.IsTop rules top) ∧
      ∀ main, options.mainRule = some main → main ∈ Rules.names rules
  enterable (tree : Tree) : ofRules rules options = .ok tree → tree.Enterable rules options

/-- Whether rules with distinct names have a tree or which fault they have depends on nothing but the stated
reasons, and a tree has the main rule and the other top rules as its entry rules. -/
theorem outcomes_exact (distinct : (Rules.names rules).Nodup) (options : Options) : Outcomes rules options where
  noRules := by
    rw [ofRules_eq_iff]
    refine ⟨?_, .noRules⟩
    rintro ⟨none⟩
    exact none
  emptyDefinition name index := by
    rw [ofRules_eq_iff]
    refine ⟨?_, .emptyDefinition⟩
    rintro ⟨_⟩
    assumption
  undefinedReference name target := by
    rw [ofRules_eq_iff]
    refine ⟨?_, fun h => .undefinedReference h.1 h.2⟩
    rintro ⟨_⟩
    exact ⟨‹_›, ‹_›⟩
  noEntryPoint path := by
    rw [ofRules_eq_iff]
    constructor
    · rintro ⟨_⟩
      exact ⟨‹_›, ‹_›, rfl⟩
    · rintro ⟨checked, linked, rfl⟩
      exact .noEntryPoint checked linked
  undefinedMainRule name := by
    rw [ofRules_eq_iff]
    refine ⟨?_, fun h => .undefinedMainRule h.1 h.2.1 h.2.2.1 h.2.2.2⟩
    rintro ⟨_⟩
    exact ⟨‹_›, ‹_›, ‹_›, ‹_›⟩
  tree := by
    constructor
    · rintro ⟨tree, built⟩
      cases ofRules_eq_iff.1 built with
      | tree checked top defined => exact ⟨checked, top, defined⟩
    · rintro ⟨checked, top, defined⟩
      exact ⟨_, ofRules_eq_iff.2 (.tree checked top defined)⟩
  enterable tree built := enterable_of_outcome distinct (ofRules_eq_iff.1 built)

/-- A query for parts. -/
def partRules : List Rule :=
  [⟨"part", [[.symbol "item" [] false, .reference "part" true .once]]⟩,
    ⟨"query", [[.symbol "find" [] false, .reference "part" false .once]]⟩]

/-- With a main rule that other rules reference, the tree can be entered there and at the top rule. -/
theorem outcomes_exact_parts :
    (Rules.names partRules).Nodup ∧
      (∃ tree, ofRules partRules (Options.initial.withMainRule "part") = .ok tree ∧
        tree.entryNames = ["part", "query"]) ∧
      Outcomes partRules (Options.initial.withMainRule "part") := by
  have distinct : (Rules.names partRules).Nodup := by decide
  have built : ofRules partRules (Options.initial.withMainRule "part") =
      .ok (ofEntries 64 (["part", "query"].map (Unfolding.ofEntry partRules))) := rfl
  exact ⟨distinct, ⟨_, built, entryNames_ofEntries 64 _⟩, outcomes_exact distinct _⟩

end Tree

end ChainGrammar
