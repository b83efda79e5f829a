import ChainGrammar.Proofs.Tree.Compiled
import ChainGrammar.Proofs.Tree.Layout

/-!
# The tree shows the rules unfolded

`Tree.ShowsRule` says what the tree of a list of rules looks like at the node of a rule, in terms of the
rules alone.  The alternatives below the node are the definitions of the rule.  A definition is a chain of
nodes, one for each symbol or reference, each of which is all that comes after the one before.  A
reference to a rule that is being unfolded already is a back-edge, which leads back to the node of
that rule; every other reference is the node of an unfolded rule.

The rules that are being unfolded at a place are kept with their nodes (`Tree.Enclosing`).  That the
nearest such node upwards is the enclosing one, and not an earlier use of the same rule in the same
definition, is because below a rule every reference to it is a back-edge (`Tree.Locates`).
-/

set_option autoImplicit false

namespace ChainGrammar

namespace Tree

/-- The rules that are being unfolded at a place, newest first, each with its node. -/
abbrev Enclosing := List (String × Nat)

/-- The names of the rules that are being unfolded. -/
abbrev Enclosing.path (enclosing : Enclosing) : List String := enclosing.map Prod.fst

mutual

/-- Below the node stand the definitions of the rule of the given name. -/
inductive ShowsRule (tree : Tree) (rules : List Rule) : Enclosing → String → Nat → Prop where
  | intro {enclosing : Enclosing} {name : String} {id : Nat} {rule : Rule}
      (found : Rules.find? rules name = some rule)
      (inside : ShowsDefinitions tree rules ((name, id) :: enclosing) name rule.definitions
        (tree.body id)) :
      ShowsRule tree rules enclosing name id

/-- The nodes begin the definitions in order. -/
inductive ShowsDefinitions (tree : Tree) (rules : List Rule) :
    Enclosing → String → List Definition → List Nat → Prop where
  | nil {enclosing : Enclosing} {owner : String} : ShowsDefinitions tree rules enclosing owner [] []
  | cons {enclosing : Enclosing} {owner : String} {definition : Definition}
      {definitions : List Definition} {id : Nat} {ids : List Nat}
      (first : ShowsDefinition tree rules enclosing owner definition [id])
      (others : ShowsDefinitions tree rules enclosing owner definitions ids) :
      ShowsDefinitions tree rules enclosing owner (definition :: definitions) (id :: ids)

/-- The node, if there is one, begins the rest of a definition of the rule `owner`; there is none where
no symbol or reference is left. -/
inductive ShowsDefinition (tree : Tree) (rules : List Rule) :
    Enclosing → String → Definition → List Nat → Prop where
  | done {enclosing : Enclosing} {owner : String} : ShowsDefinition tree rules enclosing owner [] []
  /-- A symbol is a method with its own parameters and those declared behind it. -/
  | symbol {enclosing : Enclosing} {owner name : String} {params : List String} {optional : Bool}
      {rest : Definition} {id : Nat}
      (label : tree.label id =
        .method name owner (params.map .named ++ Unfolding.declaredParams rest) optional)
      (bare : tree.body id = [])
      (further : ShowsDefinition tree rules enclosing owner rest (tree.children id)) :
      ShowsDefinition tree rules enclosing owner (.symbol name params optional :: rest) [id]
  /-- A reference to a rule that is not being unfolded is the node of that rule. -/
  | unfolded {enclosing : Enclosing} {owner target : String} {optional : Bool} {repeats : Repeat}
      {rest : Definition} {id : Nat} (off : target ∉ enclosing.path)
      (label : tree.label id = .rule target optional repeats)
      (inside : ShowsRule tree rules enclosing target id)
      (further : ShowsDefinition tree rules enclosing owner rest (tree.children id)) :
      ShowsDefinition tree rules enclosing owner (.reference target optional repeats :: rest) [id]
  /-- A reference to a rule that is being unfolded is a back-edge to the node of that rule. -/
  | returning {enclosing : Enclosing} {owner target : String} {optional : Bool} {repeats : Repeat}
      {rest : Definition} {id rule : Nat} (on : (target, rule) ∈ enclosing)
      (label : tree.label id = .backEdge target owner optional repeats) (bare : tree.body id = [])
      (leads : tree.target? id = some rule)
      (further : ShowsDefinition tree rules enclosing owner rest (tree.children id)) :
      ShowsDefinition tree rules enclosing owner (.reference target optional repeats :: rest) [id]
  /-- An argument has no node of its own. -/
  | declared {enclosing : Enclosing} {owner : String} {segment : Segment} {rest : Definition}
      {ids : List Nat} (argument : segment.isAnchor = false)
      (further : ShowsDefinition tree rules enclosing owner rest ids) :
      ShowsDefinition tree rules enclosing owner (segment :: rest) ids

end

/-- The node is an entry rule: a plain rule with nothing after it. -/
structure ShowsEntry (tree : Tree) (rules : List Rule) (name : String) (id : Nat) : Prop where
  label : tree.label id = .rule name false .once
  last : tree.children id = []
  inside : tree.ShowsRule rules [] name id

variable {tree : Tree} {rules : List Rule} {enclosing : Enclosing}

/-! ## The nearest node of a rule -/

/-- The nearest node of the rule of the given name, from a node upwards. -/
def nearestRule? (tree : Tree) (start : Nat) (name : String) : Option Nat :=
  (start :: tree.ancestors start).find? fun id => (tree.label id).isRule name

/-- Above a node the search goes on from its parent. -/
theorem enclosingRule?_of_parent? {id p : Nat} (h : tree.parent? id = some p) (name : String) :
    tree.enclosingRule? id name = tree.nearestRule? p name := by
  rw [enclosingRule?, nearestRule?, ancestors_of_parent? h]

/-- The search ends at a node of the rule. -/
theorem nearestRule?_of_isRule {id : Nat} {name : String}
    (h : (tree.label id).isRule name = true) : tree.nearestRule? id name = some id := by
  rw [nearestRule?, List.find?_cons, h]

/-- The search passes a node that is none of the rule. -/
theorem nearestRule?_of_not_isRule {id : Nat} {name : String}
    (h : (tree.label id).isRule name = false) :
    tree.nearestRule? id name = tree.enclosingRule? id name := by
  rw [nearestRule?, List.find?_cons, h]
  rfl

/-- From the node upwards, the nearest nodes of the rules that are being unfolded are their own. -/
def Locates (tree : Tree) (start : Nat) (enclosing : Enclosing) : Prop :=
  ∀ name id, (name, id) ∈ enclosing → tree.nearestRule? start name = some id

/-- What is located from the parent is located above a node. -/
theorem Locates.above {id p : Nat} (h : tree.Locates p enclosing) (parent : tree.parent? id = some p)
    {name : String} {rule : Nat} (hmem : (name, rule) ∈ enclosing) :
    tree.enclosingRule? id name = some rule := by
  rw [enclosingRule?_of_parent? parent]
  exact h name rule hmem

/-- Behind a node that is none of the rules being unfolded, these are located as before. -/
theorem Locates.next {id p : Nat} (h : tree.Locates p enclosing) (parent : tree.parent? id = some p)
    (other : ∀ name ∈ enclosing.path, (tree.label id).isRule name = false) :
    tree.Locates id enclosing := by
  intro name rule hmem
  rw [nearestRule?_of_not_isRule (other name (List.mem_map.2 ⟨_, hmem, rfl⟩))]
  exact h.above parent hmem

/-- Below the node of a rule that was not being unfolded, it is located as well. -/
theorem Locates.down {id p : Nat} {target : String} {optional : Bool} {repeats : Repeat}
    (h : tree.Locates p enclosing) (parent : tree.parent? id = some p)
    (label : tree.label id = .rule target optional repeats) (off : target ∉ enclosing.path) :
    tree.Locates id ((target, id) :: enclosing) := by
  intro name rule hmem
  rcases List.mem_cons.1 hmem with heq | hmem
  · obtain ⟨rfl, rfl⟩ := Prod.mk.inj heq
    exact nearestRule?_of_isRule (by simp [label, Label.isRule])
  · refine h.next parent (fun other hother => ?_) name rule hmem
    have hne : target ≠ other := fun heq => off (heq ▸ hother)
    simpa [label, Label.isRule] using hne

/-! ## Every laid-out unfolding is shown -/

/-- A rule that is laid out below a node. -/
structure LaysOut (tree : Tree) (rules : List Rule) (enclosing : Enclosing) (name : String)
    (off : name ∉ enclosing.path) (id : Nat) : Prop where
  body : tree.body id = Unfolding.heads (id + 1) (Unfolding.bodyOf rules enclosing.path name off)
  holds : tree.Holds (id + 1)
    (Unfolding.nodesOfAll id (id + 1) (Unfolding.bodyOf rules enclosing.path name off))
  locates : tree.Locates id ((name, id) :: enclosing)

/-- A rule that is not defined has no bodies. -/
theorem bodyOf_of_none {name : String} {path : List String} {off : name ∉ path}
    (missing : Rules.find? rules name = none) : Unfolding.bodyOf rules path name off = [] := by
  rw [Unfolding.bodyOf]
  split
  · rfl
  · rename_i rule hrule
    rw [missing] at hrule
    cases hrule

/-- The bodies of a rule that is defined. -/
theorem bodyOf_of_find? {name : String} {rule : Rule} {path : List String}
    (found : Rules.find? rules name = some rule) (off : name ∉ path) :
    Unfolding.bodyOf rules path name off =
      rule.definitions.map (Unfolding.ofDefinition name (name :: path)
        fun target h => Unfolding.bodyOf rules (name :: path) target h) := by
  rw [Unfolding.bodyOf]
  split
  · rename_i hnone
    rw [found] at hnone
    cases hnone
  · rename_i other hother
    obtain rfl := Option.some.inj (found.symm.trans hother)
    rfl

/-- A definition that is laid out is shown, provided that the rules unfolded in it are. -/
theorem showsDefinition_of_holds {owner : String}
    (unfolds : ∀ target (off : target ∉ enclosing.path) id,
      (∃ found, Rules.find? rules target = some found) →
      tree.LaysOut rules enclosing target off id → tree.ShowsRule rules enclosing target id)
    (definition : Definition)
    (declared : ∀ name params optional rest, .symbol name params optional :: rest <:+ definition →
      Unfolding.paramsToSymbol rest = Unfolding.declaredParams rest)
    (resolved : ∀ segment ∈ definition, ∀ target, segment.target? = some target →
      ∃ found, Rules.find? rules target = some found)
    {parent base : Nat} (locates : tree.Locates parent enclosing)
    (holds : tree.Holds base ((Unfolding.ofDefinition owner enclosing.path
      (fun target h => Unfolding.bodyOf rules enclosing.path target h) definition).nodes parent base)) :
    tree.ShowsDefinition rules enclosing owner definition
      ((Unfolding.ofDefinition owner enclosing.path
        (fun target h => Unfolding.bodyOf rules enclosing.path target h) definition).head base) := by
  induction definition generalizing parent base with
  | nil => exact .done
  | cons segment rest ih =>
    have ih := @ih (fun name params optional behind h =>
        declared name params optional behind (h.trans (List.suffix_cons ..)))
      fun other hother => resolved other (List.mem_cons_of_mem _ hother)
    cases segment with
    | symbol name params optional =>
      rw [Unfolding.ofDefinition, declared name params optional rest List.suffix_rfl] at holds
      rw [Unfolding.ofDefinition]
      obtain ⟨hnode, _, hnext⟩ := holds_step.1 holds
      obtain ⟨hlabel, hbody, hchildren, hparent⟩ := node_facts hnode
      refine .symbol hlabel hbody ?_
      rw [hchildren]
      exact ih (locates.next hparent (fun _ _ => by rw [hlabel]; rfl)) hnext
    | reference target optional repeats =>
      rw [Unfolding.ofDefinition] at holds ⊢
      split at holds
      · rename_i on
        rw [dif_pos on]
        obtain ⟨hnode, _, hnext⟩ := holds_step.1 holds
        obtain ⟨hlabel, hbody, hchildren, hparent⟩ := node_facts hnode
        obtain ⟨⟨_, rule⟩, hmem, rfl⟩ := List.mem_map.1 on
        refine .returning hmem hlabel hbody ?_ ?_
        · rw [target?, hlabel]
          exact locates.above hparent hmem
        · rw [hchildren]
          exact ih (locates.next hparent (fun _ _ => by rw [hlabel]; rfl)) hnext
      · rename_i off
        rw [dif_neg off]
        obtain ⟨hnode, hinside, hnext⟩ := holds_step.1 holds
        obtain ⟨hlabel, hbody, hchildren, hparent⟩ := node_facts hnode
        have hdown := locates.down hparent hlabel off
        refine .unfolded off hlabel ?_ ?_
        · exact unfolds target off base
            (resolved (.reference target optional repeats) List.mem_cons_self target rfl)
            ⟨hbody, hinside, hdown⟩
        · rw [hchildren]
          -- behind the node of a rule the rules around it are located through that node
          exact ih (fun name id hmem => hdown name id (List.mem_cons_of_mem _ hmem)) hnext
    | parameter name => exact .declared rfl (ih locates holds)
    | value => exact .declared rfl (ih locates holds)
    | alternation => exact .declared rfl (ih locates holds)

/-- A definition that begins with a symbol or a reference has a first node. -/
theorem head_ofDefinition {owner : String} {path : List String}
    {body : (target : String) → target ∉ path → List Unfolding} {definition : Definition}
    (begins : ∃ segment rest, definition = segment :: rest ∧ segment.isAnchor = true) (base : Nat) :
    (Unfolding.ofDefinition owner path body definition).head base = [base] := by
  obtain ⟨segment, rest, rfl, anchor⟩ := begins
  cases segment with
  | symbol => rfl
  | reference =>
    rw [Unfolding.ofDefinition]
    split <;> rfl
  | parameter => cases anchor
  | value => cases anchor
  | alternation => cases anchor

/-- A rule that is laid out below a node is shown there. -/
theorem showsRule_of_laysOut (compilable : Rules.Compilable rules) (enclosing : Enclosing)
    (name : String) (off : name ∉ enclosing.path) (id : Nat)
    (defined : ∃ found, Rules.find? rules name = some found)
    (laid : tree.LaysOut rules enclosing name off id) : tree.ShowsRule rules enclosing name id := by
  obtain ⟨rule, found⟩ := defined
  have hrule := Rules.find?_mem found
  have fewer := Rules.unvisited_cons_lt found off
  obtain ⟨hbody, hholds, locates⟩ := laid
  rw [bodyOf_of_find? found off] at hbody hholds
  refine .intro found ?_
  rw [hbody]
  clear hbody
  have unfolds : ∀ target (off : target ∉ Enclosing.path ((name, id) :: enclosing)) id',
      (∃ found, Rules.find? rules target = some found) →
      tree.LaysOut rules ((name, id) :: enclosing) target off id' →
      tree.ShowsRule rules ((name, id) :: enclosing) target id' := fun target off id' =>
    showsRule_of_laysOut compilable ((name, id) :: enclosing) target off id'
  have begins := compilable.begins rule hrule
  have declared := compilable.declared rule hrule
  have resolved := compilable.resolved rule hrule
  -- the definitions are laid out one after the other, all hanging from the node of the rule
  generalize rule.definitions = definitions at begins declared resolved hholds ⊢
  generalize id + 1 = base at hholds ⊢
  induction definitions generalizing base with
  | nil => exact .nil
  | cons definition definitions ih =>
    obtain ⟨hfirst, hrest⟩ := holds_all_cons.1 hholds
    have hshown := showsDefinition_of_holds unfolds definition (declared definition List.mem_cons_self)
      (resolved definition List.mem_cons_self) locates hfirst
    have hhead : (Unfolding.ofDefinition name (name :: enclosing.path)
        (fun target h => Unfolding.bodyOf rules (name :: enclosing.path) target h) definition).head
          base = [base] :=
      head_ofDefinition (begins definition List.mem_cons_self) base
    rw [List.map_cons, Unfolding.heads, hhead, List.singleton_append]
    refine .cons (hhead ▸ hshown) (ih ?_ ?_ ?_ _ hrest)
    · exact fun other hother => begins other (List.mem_cons_of_mem _ hother)
    · exact fun other hother => declared other (List.mem_cons_of_mem _ hother)
    · exact fun other hother => resolved other (List.mem_cons_of_mem _ hother)
termination_by Rules.unvisited rules enclosing.path
decreasing_by exact fewer

/-- The entry rules are shown below the root, in their order. -/
theorem showsEntries {options : Options} {entries : List String}
    (compilable : Rules.Compilable rules) (hentries : Rules.entryNames rules options = .ok entries)
    (laid : tree = ofEntries options.maxDepth (entries.map (Unfolding.ofEntry rules))) :
    List.Forall₂ (tree.ShowsEntry rules) entries (tree.children 0) := by
  obtain ⟨hroot, hholds⟩ := holds_ofEntries options.maxDepth (entries.map (Unfolding.ofEntry rules))
  rw [← laid] at hroot hholds
  rw [(node_facts hroot).2.2.1, rootNode]
  have hdefined : ∀ name ∈ entries, ∃ found, Rules.find? rules name = some found :=
    fun _ hname => Rules.find?_of_mem_entryNames hentries hname
  clear hentries laid hroot
  generalize 1 = base at hholds ⊢
  induction entries generalizing base with
  | nil => exact .nil
  | cons name entries ih =>
    obtain ⟨hfirst, hrest⟩ := holds_all_cons.1 hholds
    obtain ⟨hnode, hinside, _⟩ := holds_step.1 hfirst
    obtain ⟨hlabel, hbody, hchildren, _⟩ := node_facts hnode
    refine .cons ⟨hlabel, hchildren, ?_⟩
      (ih (fun other hother => hdefined other (List.mem_cons_of_mem _ hother)) _ hrest)
    refine showsRule_of_laysOut compilable [] name List.not_mem_nil base
      (hdefined name List.mem_cons_self) ⟨hbody, hinside, fun other id hmem => ?_⟩
    obtain ⟨rfl, rfl⟩ := Prod.mk.inj (List.mem_singleton.1 hmem)
    exact nearestRule?_of_isRule (by simp [hlabel, Label.isRule])

/-- The tree is the unfolding of the rules, laid out in the order in which its nodes are met. -/
structure IsUnfoldingOf (tree : Tree) (rules : List Rule) (options : Options) : Prop where
  /-- The first node is the root. -/
  root : tree.label 0 = .root ∧ tree.body 0 = [] ∧ tree.parent? 0 = none
  /-- After the root come the entry rules in their order, each unfolded. -/
  entries : ∃ names, Rules.entryNames rules options = .ok names ∧
    List.Forall₂ (tree.ShowsEntry rules) names (tree.children 0)
  /-- Every other node hangs from one node, in one place. -/
  once : ((List.range tree.size).flatMap tree.below).Perm (List.range' 1 (tree.size - 1))
  /-- A node hangs from the node that it names as its parent, which has a smaller number. -/
  linked : ∀ id other, (other ∈ tree.below id ↔ tree.parent? other = some id) ∧
    (other ∈ tree.below id → id < other)
  /-- The nodes are met in the order of their numbers. -/
  preorder : tree.Preorder [0] (List.range tree.size)
  /-- Listed depth first, the names of the methods come in that order too. -/
  methods : tree.methodNames = ((List.range tree.size).filter fun id => (tree.label id).isMethod).map
    fun id => (tree.label id).name
  limit : tree.maxDepth = options.maxDepth

/-- Whatever has been written, the tree of the rules is their unfolding, laid out in preorder. -/
theorem ofRules_isUnfoldingOf {options : Options} (authored : Rules.Authored rules)
    (built : Tree.ofRules rules options = .ok tree) : tree.IsUnfoldingOf rules options := by
  have compilable := authored.compilable built
  obtain ⟨_, _, entries, hentries, laid⟩ := ofRules_ok built
  have shown := showsEntries compilable hentries laid
  subst laid
  obtain ⟨hlabel, hbody, _, hparent⟩ := node_facts (holds_ofEntries options.maxDepth
    (entries.map (Unfolding.ofEntry rules))).1
  exact {
    root := ⟨hlabel, hbody, hparent⟩
    entries := ⟨entries, hentries, shown⟩
    once := below_perm _ _
    linked := fun id other => ⟨mem_below_iff, fun h => (lt_of_mem_below h).1⟩
    preorder := preorder_range _ _
    methods := methodNames_ofEntries _ _
    limit := rfl }

/-- The tree of the rule for terms in brackets is its unfolding. -/
theorem bracketTree_isUnfoldingOf :
    Rules.Authored bracketRules ∧ Tree.ofRules bracketRules .initial = .ok bracketTree ∧
      bracketTree.IsUnfoldingOf bracketRules .initial :=
  ⟨bracketRules_authored, bracketTree_built,
    ofRules_isUnfoldingOf bracketRules_authored bracketTree_built⟩

end Tree

end ChainGrammar
