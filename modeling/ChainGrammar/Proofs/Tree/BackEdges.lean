import ChainGrammar.Proofs.Tree.Containment

/-!
# Where back-edges lead

A back-edge leads to the one node of its rule that contains it (`Tree.target?_of_backEdge`).  This is the
node whose rule was being unfolded when the back-edge was added.  Other nodes of the rule may stand on the
way up as well, since the way up passes what comes earlier in a definition, but they are farther up and do
not contain the back-edge.
-/

set_option autoImplicit false

namespace ChainGrammar

namespace Tree

variable {tree : Tree}

/-- The rule of a node is still being unfolded when another node is added.  Nodes have their numbers in
the order in which they are added, so all that were added since the node of the rule are part of it. -/
structure IsOpenAt (tree : Tree) (rule id : Nat) : Prop where
  inside : tree.Contains rule id
  since : ∀ between, rule < between → between ≤ id → tree.Contains rule between

variable {rules : List Rule} {options : Options}

/-- A back-edge is contained in a node of its rule. -/
theorem exists_contains_of_backEdge (built : Tree.ofRules rules options = .ok tree) {id : Nat}
    {name owner : String} {optional : Bool} {repeats : Repeat}
    (label : tree.label id = .backEdge name owner optional repeats) :
    ∃ rule, (tree.label rule).isRule name = true ∧ tree.Contains rule id := by
  have hroot : tree.label id ≠ .root := by
    rw [label]
    exact nofun
  have low : 0 < id := by
    refine Nat.pos_of_ne_zero ?_
    rintro rfl
    exact hroot (root_of_ofRules built).1
  obtain ⟨path, _, _, element, surrounded⟩ :=
    exists_element_of_ofRules built low (lt_size_of_label hroot)
  obtain rfl := element.label_eq.symm.trans label
  obtain ⟨_, inScope⟩ := element
  cases inScope with
  | backEdge on => exact surrounded name on

/-- Every back-edge leads to the node of its rule that was open when it was added.  It is the only node of
the rule that contains the back-edge; those that the way up meets besides come earlier and are complete. -/
theorem target?_of_backEdge (built : Tree.ofRules rules options = .ok tree) {id : Nat}
    {name owner : String} {optional : Bool} {repeats : Repeat}
    (label : tree.label id = .backEdge name owner optional repeats) :
    ∃ rule, tree.target? id = some rule ∧ (tree.label rule).isRule name = true ∧
      tree.IsOpenAt rule id ∧
      (∀ other, (tree.label other).isRule name = true → tree.Contains other id → other = rule) ∧
      ∀ other ∈ tree.ancestors id, (tree.label other).isRule name = true → other ≠ rule →
        other < rule ∧ ¬tree.Contains other id := by
  obtain ⟨rule, isRule, inside⟩ := exists_contains_of_backEdge built label
  have found := enclosingRule?_of_contains built isRule inside
  have unique : ∀ other, (tree.label other).isRule name = true → tree.Contains other id →
      other = rule := fun other hother hinside =>
    Option.some.inj ((enclosingRule?_of_contains built hother hinside).symm.trans found)
  refine ⟨rule, by rw [target?, label]; exact found, isRule,
    ⟨inside, fun _ low high => inside.between built low high⟩, unique, fun other up hother hne => ?_⟩
  refine ⟨?_, fun hinside => hne (unique other hother hinside)⟩
  have before : other < id := lt_of_mem_ancestors up
  -- a node between the two would be inside the rule, which contains no other node of it
  have outside : ¬rule < other := fun low =>
    not_contains_of_isRule built isRule hother (inside.between built low (Nat.le_of_lt before))
  omega

/-! ### Two uses of a rule in one definition -/

/-- Two terms in brackets, one after the other. -/
def pairRules : List Rule :=
  ⟨"pair", [[.reference "term" false .once, .reference "term" false .once]]⟩ :: bracketRules

/-- The tree of two terms in brackets. -/
def pairTree : Tree := Tree.ofEntries 64 [Unfolding.ofEntry pairRules "pair"]

/-- The back-edge in the second term leads to that term, although the first one is on the way up too. -/
theorem pairTree_target :
    Tree.ofRules pairRules .initial = .ok pairTree ∧
      pairTree.label 9 = .backEdge "term" "term" true (.times 3) ∧
      2 ∈ pairTree.ancestors 9 ∧ (pairTree.label 2).isRule "term" = true ∧
      pairTree.target? 9 = some 7 ∧
      ∃ rule, pairTree.target? 9 = some rule ∧ (pairTree.label rule).isRule "term" = true ∧
        pairTree.IsOpenAt rule 9 ∧
        (∀ other, (pairTree.label other).isRule "term" = true → pairTree.Contains other 9 →
          other = rule) ∧
        ∀ other ∈ pairTree.ancestors 9, (pairTree.label other).isRule "term" = true → other ≠ rule →
          other < rule ∧ ¬pairTree.Contains other 9 := by
  have built : Tree.ofRules pairRules .initial = .ok pairTree := rfl
  have label : pairTree.label 9 = .backEdge "term" "term" true (.times 3) := by decide +kernel
  exact ⟨built, label, by decide +kernel, by decide +kernel, by decide +kernel,
    target?_of_backEdge built label⟩

end Tree

end ChainGrammar
