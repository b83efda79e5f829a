import ChainGrammar.Proofs.Tree.Compiled
import ChainGrammar.Proofs.Tree.Layout
import ChainGrammar.Tree.Containment

/-!
# What a node contains

The numbers of the nodes that a node contains follow its own number without a gap
(`Tree.contains_iff_of_holds`), so of two nodes that contain a third one contains the other.

An unfolding is scoped: a rule is unfolded only where it is not being unfolded already, and a back-edge
stands only where its rule is (`Unfolding.Scoped`).  Therefore no node of a rule contains another node of
the same rule (`Tree.Scoped.not_contains`), every back-edge is contained in a node of its rule, and
where a node of a rule contains the start, the search upwards for that rule finds it
(`Tree.enclosingRule?_of_contains`): all nodes that are passed on the way lie between the two, so they
are contained in the node that is looked for.
-/

set_option autoImplicit false

namespace ChainGrammar

namespace Unfolding

/-- In the scope of the rules on the path: a rule that is unfolded joins them for what is below it, a
back-edge leads to one of them, and nothing is below other nodes. -/
inductive Scoped : List String → Unfolding → Prop where
  | done {path : List String} : Scoped path .done
  | method {path : List String} {name owner : String} {params : List Param} {optional : Bool}
      {next : Unfolding} (further : Scoped path next) :
      Scoped path (.step (.method name owner params optional) [] next)
  | rule {path : List String} {name : String} {optional : Bool} {repeats : Repeat}
      {body : List Unfolding} {next : Unfolding} (off : name ∉ path)
      (inside : ∀ u ∈ body, Scoped (name :: path) u) (further : Scoped path next) :
      Scoped path (.step (.rule name optional repeats) body next)
  | backEdge {path : List String} {name owner : String} {optional : Bool} {repeats : Repeat}
      {next : Unfolding} (on : name ∈ path) (further : Scoped path next) :
      Scoped path (.step (.backEdge name owner optional repeats) [] next)

/-- A definition is unfolded in the scope of the path. -/
theorem scoped_ofDefinition {owner : String} {path : List String}
    {body : (target : String) → target ∉ path → List Unfolding}
    (inside : ∀ target off, ∀ u ∈ body target off, Scoped (target :: path) u)
    (definition : Definition) : Scoped path (ofDefinition owner path body definition) := by
  induction definition with
  | nil => exact .done
  | cons segment rest ih =>
    cases segment with
    | symbol => exact .method ih
    | reference target =>
      rw [ofDefinition]
      split
      · rename_i on
        exact .backEdge on ih
      · rename_i off
        exact .rule off (inside target off) ih
    | parameter => exact ih
    | value => exact ih
    | alternation => exact ih

/-- The bodies of a rule are unfolded in the scope of the path with the rule on it. -/
theorem scoped_bodyOf (rules : List Rule) (path : List String) (name : String)
    (off : name ∉ path) : ∀ u ∈ bodyOf rules path name off, Scoped (name :: path) u := by
  fun_induction bodyOf rules path name off with
  | case1 => simp
  | case2 path name off rule found fewer ih =>
    intro u hu
    obtain ⟨definition, _, rfl⟩ := List.mem_map.1 hu
    exact scoped_ofDefinition ih definition

/-- An entry rule is unfolded in the empty scope. -/
theorem scoped_ofEntry (rules : List Rule) (name : String) : Scoped [] (ofEntry rules name) :=
  .rule List.not_mem_nil (scoped_bodyOf rules [] name List.not_mem_nil) .done

end Unfolding

namespace Tree

variable {tree : Tree} {base parent : Nat}

/-! ## Containment as an interval of numbers -/

/-- What is reached from a node that hangs from another one is reached from that one. -/
theorem Reaches.of_below {start first id : Nat} (member : first ∈ tree.below start)
    (h : tree.Reaches first id) : tree.Reaches start id := by
  induction h with
  | refl =>
    rcases List.mem_append.1 member with member | member
    · exact .down .refl member
    · exact .further .refl member
  | down _ member ih => exact .down ih member
  | further _ member ih => exact .further ih member

/-- What is reached from a node is the node, or is reached from one that hangs from it. -/
theorem Reaches.eq_or {start id : Nat} (h : tree.Reaches start id) :
    id = start ∨ ∃ first ∈ tree.below start, tree.Reaches first id := by
  induction h with
  | refl => exact .inl rfl
  | @down node first _ member ih =>
    refine .inr ?_
    rcases ih with rfl | ⟨other, hother, before⟩
    · exact ⟨first, List.mem_append_left _ member, .refl⟩
    · exact ⟨other, hother, .down before member⟩
  | @further node following _ member ih =>
    refine .inr ?_
    rcases ih with rfl | ⟨other, hother, before⟩
    · exact ⟨following, List.mem_append_right _ member, .refl⟩
    · exact ⟨other, hother, .further before member⟩

/-- The nodes that are met from some nodes on are those that are reached from them. -/
theorem Preorder.mem_iff {first order : List Nat} (h : tree.Preorder first order) (id : Nat) :
    id ∈ order ↔ ∃ start ∈ first, tree.Reaches start id := by
  induction h with
  | nil => simp
  | @cons start rest inside behind _ _ ihInside ihBehind =>
    rw [List.cons_append, List.mem_cons, List.mem_append, ihInside, ihBehind]
    constructor
    · rintro (rfl | ⟨other, hother, reached⟩ | ⟨other, hother, reached⟩)
      · exact ⟨id, List.mem_cons_self, .refl⟩
      · exact ⟨start, List.mem_cons_self, .of_below hother reached⟩
      · exact ⟨other, List.mem_cons_of_mem _ hother, reached⟩
    · rintro ⟨other, hother, reached⟩
      rcases List.mem_cons.1 hother with rfl | hother
      · rcases reached.eq_or with rfl | inside
        · exact .inl rfl
        · exact .inr (.inl inside)
      · exact .inr (.inr ⟨other, hother, reached⟩)

/-- A laid-out node contains the nodes that are laid out behind it for what is below it. -/
theorem contains_iff_of_holds {label : Label} {body : List Unfolding} {next : Unfolding}
    (h : tree.Holds base ((Unfolding.step label body next).nodes parent base)) (id : Nat) :
    tree.Contains base id ↔ base < id ∧ id ≤ base + Unfolding.sizes body := by
  obtain ⟨hnode, hbody, _⟩ := holds_step.1 h
  have hmem := (preorder_heads body hbody).mem_iff id
  rw [Contains, (node_facts hnode).2.1, ← hmem, List.mem_range'_1]
  omega

/-! ## The element at a node -/

/-- An element of an unfolding, with what is below it, is laid out at a node in the scope of a path. -/
inductive Element (tree : Tree) (path : List String) (id : Nat) : Label → List Unfolding → Prop where
  | intro {label : Label} {body : List Unfolding} {next : Unfolding} {parent : Nat}
      (holds : tree.Holds id ((Unfolding.step label body next).nodes parent id))
      (inScope : (Unfolding.step label body next).Scoped path) : Element tree path id label body

/-- The names have a node of the rule each that contains the given node. -/
def Surrounded (tree : Tree) (names : List String) (id : Nat) : Prop :=
  ∀ name ∈ names, ∃ rule, (tree.label rule).isRule name = true ∧ tree.Contains rule id

section Element

variable {path : List String} {id : Nat} {label : Label} {body : List Unfolding}

theorem Element.label_eq (element : tree.Element path id label body) : tree.label id = label := by
  obtain ⟨holds, _⟩ := element
  exact (node_facts (holds_step.1 holds).1).1

theorem Element.contains_iff (element : tree.Element path id label body) (other : Nat) :
    tree.Contains id other ↔ id < other ∧ other ≤ id + Unfolding.sizes body := by
  obtain ⟨holds, _⟩ := element
  exact contains_iff_of_holds holds other

end Element

mutual

/-- At every node of a laid-out definition there is an element, in the scope of the rules that contain it
besides those around the definition. -/
theorem exists_element {parent base : Nat} {path : List String} (u : Unfolding)
    (inScope : u.Scoped path) (h : tree.Holds base (u.nodes parent base)) {id : Nat}
    (low : base ≤ id) (high : id < base + u.size) :
    ∃ newer label body, tree.Element (newer ++ path) id label body ∧ tree.Surrounded newer id := by
  cases u with
  | done =>
    simp only [Unfolding.size] at high
    omega
  | step label body next =>
    obtain ⟨hnode, hbody, hnext⟩ := holds_step.1 h
    rw [Unfolding.size] at high
    rcases Nat.eq_or_lt_of_le low with rfl | low
    · exact ⟨[], label, body, .intro h inScope, by simp [Surrounded]⟩
    rcases Nat.lt_or_ge id (base + 1 + Unfolding.sizes body) with within | behind
    · cases inScope with
      | @rule _ name _ _ _ _ off inside further =>
        obtain ⟨newer, label, below, element, surrounded⟩ :=
          exists_element_all body inside hbody low within
        refine ⟨newer ++ [name], label, below, by simpa using element, fun other hother => ?_⟩
        rcases List.mem_append.1 hother with hother | hother
        · exact surrounded other hother
        · obtain rfl := List.mem_singleton.1 hother
          refine ⟨base, ?_, (contains_iff_of_holds h id).2 (by omega)⟩
          rw [(node_facts hnode).1]
          simp [Label.isRule]
      | method =>
        simp only [Unfolding.sizes] at within
        omega
      | backEdge =>
        simp only [Unfolding.sizes] at within
        omega
    · have further : next.Scoped path := by cases inScope <;> assumption
      exact exists_element next further hnext behind (by omega)

/-- At every node of several laid-out definitions there is an element. -/
theorem exists_element_all {parent base : Nat} {path : List String} (us : List Unfolding)
    (inScope : ∀ u ∈ us, u.Scoped path)
    (h : tree.Holds base (Unfolding.nodesOfAll parent base us)) {id : Nat}
    (low : base ≤ id) (high : id < base + Unfolding.sizes us) :
    ∃ newer label body, tree.Element (newer ++ path) id label body ∧ tree.Surrounded newer id := by
  cases us with
  | nil =>
    simp only [Unfolding.sizes] at high
    omega
  | cons first rest =>
    obtain ⟨hfirst, hrest⟩ := holds_all_cons.1 h
    rw [Unfolding.sizes] at high
    rcases Nat.lt_or_ge id (base + first.size) with within | behind
    · exact exists_element first (inScope first List.mem_cons_self) hfirst low within
    · exact exists_element_all rest (fun u hu => inScope u (List.mem_cons_of_mem _ hu)) hrest behind
        (by omega)

end

/-- No element of a rule has an element of the same rule below it. -/
theorem Element.not_isRule_of_contains {path : List String} {outer : Nat} {name : String}
    {optional : Bool} {repeats : Repeat} {body : List Unfolding}
    (element : tree.Element path outer (.rule name optional repeats) body) {inner : Nat}
    (h : tree.Contains outer inner) : (tree.label inner).isRule name = false := by
  obtain ⟨low, high⟩ := (element.contains_iff inner).1 h
  obtain ⟨holds, inScope⟩ := element
  cases inScope with
  | rule off inside further =>
    obtain ⟨newer, label, below, element, _⟩ :=
      exists_element_all body inside (holds_step.1 holds).2.1 low (by omega)
    rw [element.label_eq]
    obtain ⟨_, inScope⟩ := element
    cases inScope with
    | @rule _ other _ _ _ _ off =>
      have hne : other ≠ name := by
        rintro rfl
        exact off (by simp)
      simpa [Label.isRule] using hne
    | method => rfl
    | backEdge => rfl

/-! ## Scoped trees -/

/-- The tree lays out entry rules that are unfolded in the empty scope. -/
def Scoped (tree : Tree) : Prop :=
  ∃ maxDepth entries, (∀ u ∈ entries, Unfolding.Scoped [] u) ∧ tree = ofEntries maxDepth entries

theorem scoped_ofEntries (rules : List Rule) (maxDepth : Nat) (entries : List String) :
    (ofEntries maxDepth (entries.map (Unfolding.ofEntry rules))).Scoped := by
  refine ⟨maxDepth, _, fun u hu => ?_, rfl⟩
  obtain ⟨name, _, rfl⟩ := List.mem_map.1 hu
  exact Unfolding.scoped_ofEntry rules name

namespace Scoped

/-- At every node but the root there is an element, in the scope of the rules that contain it. -/
theorem exists_element (layout : tree.Scoped) {id : Nat} (low : 0 < id) (high : id < tree.size) :
    ∃ path label body, tree.Element path id label body ∧ tree.Surrounded path id := by
  obtain ⟨maxDepth, entries, inScope, rfl⟩ := layout
  rw [size_ofEntries] at high
  obtain ⟨newer, label, body, element, surrounded⟩ :=
    exists_element_all _ inScope (holds_ofEntries maxDepth entries).2 low high
  exact ⟨newer, label, body, by simpa using element, surrounded⟩

/-- The first node is the root, which has no alternatives. -/
theorem root (layout : tree.Scoped) : tree.label 0 = .root ∧ tree.body 0 = [] := by
  obtain ⟨maxDepth, entries, _, rfl⟩ := layout
  have hroot := node_facts (holds_ofEntries maxDepth entries).1
  exact ⟨hroot.1, hroot.2.1⟩

/-- At the node of a rule there is an element of that rule. -/
theorem exists_element_of_isRule (layout : tree.Scoped) {id : Nat} {name : String}
    (h : (tree.label id).isRule name = true) :
    ∃ path optional repeats body, tree.Element path id (.rule name optional repeats) body := by
  have hroot : tree.label id ≠ .root := by
    intro hlabel
    rw [hlabel] at h
    cases h
  have low : 0 < id := by
    refine Nat.pos_of_ne_zero ?_
    rintro rfl
    exact hroot layout.root.1
  obtain ⟨path, label, body, element, _⟩ := layout.exists_element low (lt_size_of_label hroot)
  rw [element.label_eq] at h
  cases label with
  | rule other optional repeats =>
    obtain rfl : other = name := by simpa [Label.isRule] using h
    exact ⟨path, optional, repeats, body, element⟩
  | root => cases h
  | method => cases h
  | backEdge => cases h

/-- No node of a rule contains another node of the same rule. -/
theorem not_contains (layout : tree.Scoped) {outer inner : Nat} {name : String}
    (outer_isRule : (tree.label outer).isRule name = true)
    (inner_isRule : (tree.label inner).isRule name = true) : ¬tree.Contains outer inner := by
  intro h
  obtain ⟨path, optional, repeats, body, element⟩ := layout.exists_element_of_isRule outer_isRule
  rw [element.not_isRule_of_contains h] at inner_isRule
  cases inner_isRule

end Scoped

/-! ## The tree of a list of rules -/

variable {rules : List Rule} {options : Options}

theorem scoped_ofRules (built : Tree.ofRules rules options = .ok tree) : tree.Scoped := by
  obtain ⟨_, _, entries, _, rfl⟩ := ofRules_ok built
  exact scoped_ofEntries rules options.maxDepth entries

/-- At every node but the root there is an element, in the scope of the rules that contain it. -/
theorem exists_element_of_ofRules (built : Tree.ofRules rules options = .ok tree) {id : Nat}
    (low : 0 < id) (high : id < tree.size) :
    ∃ path label body, tree.Element path id label body ∧ tree.Surrounded path id :=
  (scoped_ofRules built).exists_element low high

/-- The first node is the root, which has no alternatives. -/
theorem root_of_ofRules (built : Tree.ofRules rules options = .ok tree) :
    tree.label 0 = .root ∧ tree.body 0 = [] :=
  (scoped_ofRules built).root

/-- At a node that contains another one there is an element. -/
theorem exists_element_of_contains (built : Tree.ofRules rules options = .ok tree)
    {outer inner : Nat} (h : tree.Contains outer inner) :
    ∃ path label body, tree.Element path outer label body := by
  obtain ⟨first, hfirst, _⟩ := h
  have low : 0 < outer := by
    refine Nat.pos_of_ne_zero ?_
    rintro rfl
    rw [(root_of_ofRules built).2] at hfirst
    cases hfirst
  have high : outer < tree.size := by
    by_contra hge
    have hnil := below_eq_nil (Nat.le_of_not_lt hge)
    rw [below, List.append_eq_nil_iff] at hnil
    rw [hnil.1] at hfirst
    cases hfirst
  obtain ⟨path, label, body, element, _⟩ := exists_element_of_ofRules built low high
  exact ⟨path, label, body, element⟩

/-- A node contains only nodes behind it. -/
theorem Contains.lt (built : Tree.ofRules rules options = .ok tree) {outer inner : Nat}
    (h : tree.Contains outer inner) : outer < inner := by
  obtain ⟨path, label, body, element⟩ := exists_element_of_contains built h
  exact ((element.contains_iff inner).1 h).1

/-- What lies between a node and a node that it contains is contained in it as well. -/
theorem Contains.between (built : Tree.ofRules rules options = .ok tree) {outer inner id : Nat}
    (h : tree.Contains outer inner) (low : outer < id) (high : id ≤ inner) :
    tree.Contains outer id := by
  obtain ⟨path, label, body, element⟩ := exists_element_of_contains built h
  rw [element.contains_iff] at h ⊢
  omega

/-- No node of a rule contains another node of the same rule. -/
theorem not_contains_of_isRule (built : Tree.ofRules rules options = .ok tree) {outer inner : Nat}
    {name : String} (outer_isRule : (tree.label outer).isRule name = true)
    (inner_isRule : (tree.label inner).isRule name = true) : ¬tree.Contains outer inner :=
  (scoped_ofRules built).not_contains outer_isRule inner_isRule

/-! ## Containment and the way up -/

/-- A node from which another one is reached lies on the way up from there. -/
theorem mem_ancestors_of_reaches (built : Tree.ofRules rules options = .ok tree) {start id : Nat}
    (h : tree.Reaches start id) : id = start ∨ start ∈ tree.ancestors id := by
  obtain ⟨_, _, entries, _, rfl⟩ := ofRules_ok built
  have up : ∀ {node other : Nat}, other ∈ (ofEntries options.maxDepth
      (entries.map (Unfolding.ofEntry rules))).below node → (node = start ∨
        start ∈ (ofEntries options.maxDepth (entries.map (Unfolding.ofEntry rules))).ancestors node) →
      start ∈ (ofEntries options.maxDepth (entries.map (Unfolding.ofEntry rules))).ancestors other := by
    intro node other hother ih
    rw [ancestors_of_parent? (mem_below_iff.1 hother), List.mem_cons]
    exact ih.imp Eq.symm fun h => h
  induction h with
  | refl => exact .inl rfl
  | down _ member ih => exact .inr (up (List.mem_append_left _ member) ih)
  | further _ member ih => exact .inr (up (List.mem_append_right _ member) ih)

/-- A node that contains another one lies on the way up from there. -/
theorem Contains.mem_ancestors (built : Tree.ofRules rules options = .ok tree) {outer inner : Nat}
    (h : tree.Contains outer inner) : outer ∈ tree.ancestors inner := by
  obtain ⟨first, member, reached⟩ := h
  have whole : tree.Reaches outer inner := .of_below (List.mem_append_left _ member) reached
  rcases mem_ancestors_of_reaches built whole with rfl | up
  · exact absurd (Contains.lt built ⟨first, member, reached⟩) (Nat.lt_irrefl _)
  · exact up

/-- Where a node of a rule contains the start, the search upwards for the rule finds that node. -/
theorem enclosingRule?_of_contains (built : Tree.ofRules rules options = .ok tree)
    {rule start : Nat} {name : String} (isRule : (tree.label rule).isRule name = true)
    (h : tree.Contains rule start) : tree.enclosingRule? start name = some rule := by
  obtain ⟨passed, further, hway⟩ := List.append_of_mem (h.mem_ancestors built)
  have falling := tree.ancestors_pairwise start
  rw [hway, List.pairwise_append] at falling
  rw [enclosingRule?, List.find?_eq_some_iff_append]
  refine ⟨isRule, passed, further, hway, fun other hother => ?_⟩
  have low : rule < other := falling.2.2 other hother rule List.mem_cons_self
  have high : other < start := lt_of_mem_ancestors (by rw [hway]; exact List.mem_append_left _ hother)
  -- what is passed lies inside the node that is looked for, which has no other node of its rule inside
  have inside := h.between built low (Nat.le_of_lt high)
  rw [Bool.not_eq_true', Bool.eq_false_iff]
  exact fun same => not_contains_of_isRule built isRule same inside

end Tree

end ChainGrammar
