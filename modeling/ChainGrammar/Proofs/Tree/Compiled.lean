import ChainGrammar.Proofs.Authoring.Invariant

/-!
# Rules that compile

What is known of a list of rules for which there is a tree.  No definition is empty and every referenced
name is defined; where the rules have been written in a session, every definition begins with a symbol
or a reference as well, and the arguments of a symbol follow it directly (`Rules.Compilable`).  The tree is
then the layout of the unfolded entry rules (`Tree.ofRules_ok`).
-/

set_option autoImplicit false

namespace ChainGrammar

/-! ## The arguments of a symbol -/

/-- Where no argument may follow, there is none up to the next symbol. -/
theorem Unfolding.paramsToSymbol_eq_nil {rest : Definition} {mayFollow : Bool}
    (placed : rest.foldl Segment.place (some false) = some mayFollow) : paramsToSymbol rest = [] := by
  induction rest with
  | nil => rfl
  | cons segment rest ih =>
    obtain ⟨after, hplace, hrest⟩ := Segment.exists_of_foldl_place_cons placed
    cases segment with
    | symbol => rfl
    | reference =>
      obtain rfl := Option.some.inj hplace
      exact ih hrest
    | parameter | value | alternation => cases hplace

/-- Where an argument may follow, those up to the next symbol are those up to the next reference. -/
theorem Unfolding.paramsToSymbol_eq_declaredParams {rest : Definition} {mayFollow : Bool}
    (placed : rest.foldl Segment.place (some true) = some mayFollow) :
    paramsToSymbol rest = declaredParams rest := by
  induction rest with
  | nil => rfl
  | cons segment rest ih =>
    obtain ⟨after, hplace, hrest⟩ := Segment.exists_of_foldl_place_cons placed
    cases segment with
    | symbol => rfl
    | reference =>
      obtain rfl := Option.some.inj hplace
      exact paramsToSymbol_eq_nil hrest
    | parameter | value =>
      obtain rfl := Option.some.inj hplace
      exact congrArg _ (ih hrest)
    | alternation => cases hplace

/-- In a definition in order the arguments of a symbol follow it directly. -/
theorem Ordered.paramsToSymbol_eq {definition rest : Definition} {mayFollow optional : Bool}
    (ordered : Ordered definition mayFollow) {name : String} {params : List String}
    (symbol : .symbol name params optional :: rest <:+ definition) :
    Unfolding.paramsToSymbol rest = Unfolding.declaredParams rest := by
  obtain ⟨front, rfl⟩ := symbol
  obtain ⟨_, after, _, hplace, hrest⟩ := ordered.split
  obtain rfl := Option.some.inj hplace
  exact Unfolding.paramsToSymbol_eq_declaredParams hrest

-- behind a reference no argument can be written; there the two would differ
example : Unfolding.paramsToSymbol [.value, .reference "part" false .once, .value] = [.value, .value] ∧
    Unfolding.declaredParams [.value, .reference "part" false .once, .value] = [.value] := by
  decide

namespace Rules

/-- The rule of every name that is not undefined is found. -/
theorem find?_isSome_of_mem {rules : List Rule} {rule : Rule} (h : rule ∈ rules) :
    ∃ found, find? rules rule.name = some found := by
  rw [← Option.isSome_iff_exists, find?, List.find?_isSome]
  exact ⟨rule, h, by simp⟩

/-- Without an empty definition no definition is empty. -/
theorem ne_nil_of_emptyDefinition? {rules : List Rule} (h : emptyDefinition? rules = none)
    {rule : Rule} (hrule : rule ∈ rules) {definition : Definition}
    (hdefinition : definition ∈ rule.definitions) : definition ≠ [] := by
  have hnone := List.findSome?_eq_none_iff.1 h rule hrule
  rw [Option.map_eq_none_iff, List.findIdx?_eq_none_iff] at hnone
  simpa using hnone definition hdefinition

/-- Without an undefined reference every referenced name is defined. -/
theorem find?_of_undefinedReference? {rules : List Rule} (h : undefinedReference? rules = none)
    {rule : Rule} (hrule : rule ∈ rules) {definition : Definition}
    (hdefinition : definition ∈ rule.definitions) {segment : Segment} (hsegment : segment ∈ definition)
    {target : String} (htarget : segment.target? = some target) :
    ∃ found, find? rules target = some found := by
  have hnone := List.findSome?_eq_none_iff.1 h rule hrule
  rw [Option.map_eq_none_iff, List.find?_eq_none] at hnone
  have hmem : target ∈ rule.references := by
    rw [Rule.references, List.mem_eraseDups]
    exact List.mem_filterMap.2 ⟨segment, List.mem_flatten.2 ⟨definition, hdefinition, hsegment⟩, htarget⟩
  have hdefined := hnone target hmem
  rw [← Option.isSome_iff_exists]
  simpa [Option.isSome_iff_ne_none] using hdefined

/-- The entry rules are rules. -/
theorem find?_of_mem_entryNames {rules : List Rule} {options : Options} {entries : List String}
    (h : entryNames rules options = .ok entries) {name : String} (hname : name ∈ entries) :
    ∃ found, find? rules name = some found := by
  have top : ∀ other ∈ names (topRules rules), ∃ found, find? rules other = some found := by
    intro other hother
    obtain ⟨rule, hrule, rfl⟩ := List.mem_map.1 hother
    exact find?_isSome_of_mem (List.mem_filter.1 hrule).1
  unfold entryNames at h
  dsimp only at h
  split at h
  · cases h
  · split at h
    · obtain rfl := Except.ok.inj h
      exact top name hname
    · rename_i main _
      split at h
      · rename_i hmain
        obtain rfl := Except.ok.inj h
        rcases List.mem_cons.1 hname with rfl | hname
        · exact Option.isSome_iff_exists.1 hmain
        · exact top name (List.mem_filter.1 hname).1
      · cases h

/-- Definitions begin with a symbol or a reference, the arguments of a symbol follow it directly, and
references are to rules. -/
structure Compilable (rules : List Rule) : Prop where
  begins : ∀ rule ∈ rules, ∀ definition ∈ rule.definitions,
    ∃ segment rest, definition = segment :: rest ∧ segment.isAnchor = true
  declared : ∀ rule ∈ rules, ∀ definition ∈ rule.definitions, ∀ name params optional rest,
    .symbol name params optional :: rest <:+ definition →
      Unfolding.paramsToSymbol rest = Unfolding.declaredParams rest
  resolved : ∀ rule ∈ rules, ∀ definition ∈ rule.definitions, ∀ segment ∈ definition, ∀ target,
    segment.target? = some target → ∃ found, find? rules target = some found

end Rules

/-- Rules with a tree have no empty definition and no undefined reference, and the tree lays out their
entry rules. -/
theorem Tree.ofRules_ok {rules : List Rule} {options : Options} {tree : Tree}
    (h : Tree.ofRules rules options = .ok tree) :
    Rules.emptyDefinition? rules = none ∧ Rules.undefinedReference? rules = none ∧
      ∃ entries, Rules.entryNames rules options = .ok entries ∧
        tree = Tree.ofEntries options.maxDepth (entries.map (Unfolding.ofEntry rules)) := by
  unfold Tree.ofRules at h
  split at h
  · cases h
  · split at h
    · cases h
    · rename_i hempty
      split at h
      · cases h
      · rename_i hundefined
        split at h
        · cases h
        · rename_i entries hentries
          exact ⟨hempty, hundefined, entries, hentries, (Except.ok.inj h).symm⟩

/-- Rules that have been written in a session and have a tree are compilable. -/
theorem Rules.Authored.compilable {rules : List Rule} (authored : Rules.Authored rules)
    {options : Options} {tree : Tree} (built : Tree.ofRules rules options = .ok tree) :
    Rules.Compilable rules := by
  obtain ⟨hempty, hundefined, _⟩ := Tree.ofRules_ok built
  have ordered : ∀ rule ∈ rules, ∀ definition ∈ rule.definitions, ∃ mayFollow, Ordered definition mayFollow :=
    fun rule hrule => (authored.wellFormed.each rule hrule).ordered
  refine ⟨fun rule hrule definition hdefinition => ?_, fun rule hrule definition hdefinition => ?_,
    fun rule hrule definition hdefinition => ?_⟩
  · obtain ⟨_, ordered⟩ := ordered rule hrule definition hdefinition
    exact ordered.exists_anchor (ne_nil_of_emptyDefinition? hempty hrule hdefinition)
  · obtain ⟨_, ordered⟩ := ordered rule hrule definition hdefinition
    exact fun _ _ _ _ => ordered.paramsToSymbol_eq
  · intro segment hsegment target htarget
    exact find?_of_undefinedReference? hundefined hrule hdefinition hsegment htarget

/-- What has been written in a session is proper, segment by segment. -/
theorem Rules.Authored.proper {rules : List Rule} (authored : Rules.Authored rules) :
    ∀ rule ∈ rules, ∀ definition ∈ rule.definitions, ∀ segment ∈ definition, segment.Proper := by
  intro rule hrule definition hdefinition
  obtain ⟨_, ordered⟩ := (authored.wellFormed.each rule hrule).ordered definition hdefinition
  exact ordered.proper

/-! ## An example -/

/-- Terms in brackets, up to three in one bracket, or a bare name. -/
def bracketRules : List Rule :=
  [⟨"term", [[.symbol "open" [] false, .value, .reference "term" true (.times 3),
    .symbol "close" [] false], [.symbol "atom" ["name"] false]]⟩]

/-- How the rule for terms in brackets is written. -/
def bracketEvents : List Session.Event :=
  [.openRule "term", .edit 0 (.symbol "open" []), .edit 0 .value, .edit 0 (.reference "term"),
    .edit 0 (.repeated 3), .edit 0 .optional, .edit 0 (.symbol "close" []), .edit 0 .alternative,
    .edit 0 (.symbol "atom" ["name"]), .edit 0 .finish]

/-- The rule for terms in brackets can be written. -/
theorem bracketRules_authored : Rules.Authored bracketRules :=
  Rules.authored_run "" bracketEvents

/-- The tree of the rule for terms in brackets. -/
def bracketTree : Tree := Tree.ofEntries 64 [Unfolding.ofEntry bracketRules "term"]

/-- The rule for terms in brackets has its tree. -/
theorem bracketTree_built : Tree.ofRules bracketRules .initial = .ok bracketTree := rfl

end ChainGrammar
