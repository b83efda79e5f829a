import ChainGrammar.Proofs.Tree.Containment

/-!
# What the search upwards finds

The way up from a node passes the nodes that contain it, and also those that come earlier in its definition or in
the definition of a node that contains it (`Tree.mem_ancestors_iff`).  The search for a rule on the way up
therefore answers the innermost node of the rule that contains the start, where there is one; where there is none,
it answers the last node of the rule that precedes the start (`Tree.enclosingRule?_eq_iff`).  Only in the second
case is the answer no node that encloses the start.
-/

set_option autoImplicit false

namespace ChainGrammar

namespace Tree

/-- The node comes earlier in a definition than the start, or than a node that contains the start. -/
def Precedes (tree : Tree) (earlier start : Nat) : Prop :=
  ∃ following ∈ tree.children earlier, tree.Reaches following start

/-- A node of the rule contains the start. -/
def IsEnclosed (tree : Tree) (name : String) (start : Nat) : Prop :=
  ∃ rule, (tree.label rule).isRule name = true ∧ tree.Contains rule start

/-- The node is the innermost one of the rule among those that contain the start. -/
structure IsInnermost (tree : Tree) (name : String) (start id : Nat) : Prop where
  isRule : (tree.label id).isRule name = true
  inside : tree.Contains id start
  least : ∀ other, (tree.label other).isRule name = true → tree.Contains other start →
    other = id ∨ tree.Contains other id

/-- The node is the last one of the rule among those that precede the start. -/
structure IsLastBefore (tree : Tree) (name : String) (start id : Nat) : Prop where
  isRule : (tree.label id).isRule name = true
  before : tree.Precedes id start
  last : ∀ other, (tree.label other).isRule name = true → tree.Precedes other start → other ≤ id

/-- The search for the rule answers the innermost node of it that contains the start, and nothing where none
contains it. -/
def FindsEnclosing (tree : Tree) (name : String) (start : Nat) : Prop :=
  ∀ id, tree.enclosingRule? start name = some id ↔ tree.IsInnermost name start id

variable {tree : Tree} {rules : List Rule} {options : Options} {name : String} {start id : Nat}

/-! ## The way up -/

/-- What is reached from a node that hangs from another one lies behind that one. -/
theorem lt_of_reaches (built : Tree.ofRules rules options = .ok tree) {first : Nat}
    (member : first ∈ tree.below id) (reached : tree.Reaches first start) : id < start := by
  have hfirst : id < first := (lt_of_mem_below member).1
  rcases mem_ancestors_of_reaches built reached with rfl | up
  · exact hfirst
  · exact Nat.lt_trans hfirst (lt_of_mem_ancestors up)

/-- From the nodes on the way up the start is reached. -/
theorem reaches_of_mem_ancestors (built : Tree.ofRules rules options = .ok tree)
    (up : id ∈ tree.ancestors start) : ∃ first ∈ tree.below id, tree.Reaches first start := by
  have hbelow : ∀ {other parent : Nat}, tree.parent? other = some parent → other ∈ tree.below parent := by
    obtain ⟨_, _, entries, _, rfl⟩ := ofRules_ok built
    exact fun h => mem_below_iff.2 h
  induction start using Nat.strongRecOn with
  | _ start ih =>
    cases hparent : tree.parent? start with
    | none =>
      rw [ancestors_of_parent?_none hparent] at up
      cases up
    | some parent =>
      have hstart := hbelow hparent
      rw [ancestors_of_parent? hparent] at up
      rcases List.mem_cons.1 up with rfl | up
      · exact ⟨start, hstart, .refl⟩
      · obtain ⟨first, member, reached⟩ := ih parent (parent?_lt hparent) up
        refine ⟨first, member, ?_⟩
        rcases List.mem_append.1 hstart with hstart | hstart
        · exact .down reached hstart
        · exact .further reached hstart

/-- On the way up are the nodes that contain the start and those that precede it. -/
theorem mem_ancestors_iff (built : Tree.ofRules rules options = .ok tree) :
    id ∈ tree.ancestors start ↔ tree.Contains id start ∨ tree.Precedes id start := by
  constructor
  · intro up
    obtain ⟨first, member, reached⟩ := reaches_of_mem_ancestors built up
    rcases List.mem_append.1 member with member | member
    · exact .inl ⟨first, member, reached⟩
    · exact .inr ⟨first, member, reached⟩
  · rintro (inside | ⟨first, member, reached⟩)
    · exact inside.mem_ancestors built
    · have hbelow : first ∈ tree.below id := List.mem_append_right _ member
      rcases mem_ancestors_of_reaches built (.of_below hbelow reached) with rfl | up
      · exact absurd (lt_of_reaches built hbelow reached) (Nat.lt_irrefl _)
      · exact up

/-- The search answers the last node of the rule on the way up. -/
theorem enclosingRule?_eq_some_iff :
    tree.enclosingRule? start name = some id ↔ (tree.label id).isRule name = true ∧
      id ∈ tree.ancestors start ∧
      ∀ other ∈ tree.ancestors start, (tree.label other).isRule name = true → other ≤ id := by
  have falling := tree.ancestors_pairwise start
  rw [enclosingRule?, List.find?_eq_some_iff_append]
  constructor
  · rintro ⟨isRule, passed, further, hway, hpassed⟩
    rw [hway, List.pairwise_append, List.pairwise_cons] at falling
    refine ⟨isRule, by simp [hway], fun other up isOther => ?_⟩
    rw [hway] at up
    rcases List.mem_append.1 up with up | up
    · have hnot := hpassed other up
      rw [isOther] at hnot
      cases hnot
    · rcases List.mem_cons.1 up with rfl | up
      · exact Nat.le_refl _
      · exact Nat.le_of_lt (falling.2.1.1 other up)
  · rintro ⟨isRule, up, last⟩
    obtain ⟨passed, further, hway⟩ := List.append_of_mem up
    rw [hway, List.pairwise_append] at falling
    refine ⟨isRule, passed, further, hway, fun other hother => ?_⟩
    rw [Bool.not_eq_true', Bool.eq_false_iff]
    intro isOther
    have high : id < other := falling.2.2 other hother id List.mem_cons_self
    exact Nat.lt_irrefl _ (Nat.lt_of_lt_of_le high (last other (by simp [hway, hother]) isOther))

/-! ## What is found -/

/-- Where a node of the rule contains the start, that node is the innermost one, and it is found. -/
theorem findsEnclosing_of_isEnclosed (built : Tree.ofRules rules options = .ok tree)
    (enclosed : tree.IsEnclosed name start) : tree.FindsEnclosing name start := by
  intro id
  constructor
  · intro found
    obtain ⟨rule, isRule, inside⟩ := enclosed
    obtain rfl : rule = id :=
      Option.some.inj ((enclosingRule?_of_contains built isRule inside).symm.trans found)
    refine ⟨isRule, inside, fun other isOther hother => .inl ?_⟩
    exact Option.some.inj ((enclosingRule?_of_contains built isOther hother).symm.trans found)
  · exact fun innermost => enclosingRule?_of_contains built innermost.isRule innermost.inside

/-- Where no node of the rule contains the start, the last one that precedes it is found. -/
theorem enclosingRule?_of_not_isEnclosed (built : Tree.ofRules rules options = .ok tree)
    (free : ¬tree.IsEnclosed name start) :
    tree.enclosingRule? start name = some id ↔ tree.IsLastBefore name start id := by
  have hway : ∀ other, (tree.label other).isRule name = true →
      (other ∈ tree.ancestors start ↔ tree.Precedes other start) := by
    intro other isOther
    rw [mem_ancestors_iff built]
    exact or_iff_right fun inside => free ⟨other, isOther, inside⟩
  rw [enclosingRule?_eq_some_iff]
  constructor
  · rintro ⟨isRule, up, last⟩
    exact ⟨isRule, (hway id isRule).1 up, fun other isOther before =>
      last other ((hway other isOther).2 before) isOther⟩
  · rintro ⟨isRule, before, last⟩
    exact ⟨isRule, (hway id isRule).2 before, fun other up isOther =>
      last other isOther ((hway other isOther).1 up)⟩

/-- For every node and every rule, the search upwards answers the innermost node of the rule that contains the
start, or else the last one that precedes it.  What it answers encloses the start, and nothing is answered where no
node of the rule does, exactly if some node of the rule contains the start or none precedes it. -/
theorem enclosingRule?_eq_iff (built : Tree.ofRules rules options = .ok tree) (name : String)
    (start : Nat) :
    (tree.FindsEnclosing name start ↔
      tree.IsEnclosed name start ∨
        ∀ earlier, (tree.label earlier).isRule name = true → ¬tree.Precedes earlier start) ∧
    ∀ id, tree.enclosingRule? start name = some id ↔
      tree.IsInnermost name start id ∨ ¬tree.IsEnclosed name start ∧ tree.IsLastBefore name start id := by
  have enclosed_of_innermost : ∀ {id : Nat}, tree.IsInnermost name start id → tree.IsEnclosed name start :=
    fun innermost => ⟨_, innermost.isRule, innermost.inside⟩
  by_cases enclosed : tree.IsEnclosed name start
  · have finds := findsEnclosing_of_isEnclosed built enclosed
    exact ⟨iff_of_true finds (.inl enclosed), fun id => by simp [finds id, enclosed]⟩
  · have found : ∀ id, tree.enclosingRule? start name = some id ↔ tree.IsLastBefore name start id :=
      fun id => enclosingRule?_of_not_isEnclosed built enclosed
    refine ⟨⟨fun finds => .inr fun earlier isEarlier before => ?_, ?_⟩, fun id => ?_⟩
    · -- a node of the rule on the way up makes the search answer something, which encloses nothing
      have up : earlier ∈ tree.ancestors start := (mem_ancestors_iff built).2 (.inr before)
      obtain ⟨id, hid⟩ : ∃ id, tree.enclosingRule? start name = some id := by
        rw [← Option.isSome_iff_exists, enclosingRule?, List.find?_isSome]
        exact ⟨earlier, up, isEarlier⟩
      exact enclosed (enclosed_of_innermost ((finds id).1 hid))
    · rintro (hyes | none_before) id
      · exact absurd hyes enclosed
      · rw [found]
        constructor
        · exact fun last => absurd last.before (none_before id last.isRule)
        · exact fun innermost => absurd (enclosed_of_innermost innermost) enclosed
    · rw [found]
      constructor
      · exact fun last => .inr ⟨enclosed, last⟩
      · rintro (innermost | ⟨_, last⟩)
        · exact absurd (enclosed_of_innermost innermost) enclosed
        · exact last

/-! ### A use of a rule before a symbol -/

/-- A query names its source and is then run. -/
def queryRules : List Rule :=
  [⟨"query", [[.reference "source" false .once, .symbol "run" [] false]]⟩,
    ⟨"source", [[.symbol "from" [] false]]⟩]

/-- The tree of a query. -/
def queryTree : Tree := Tree.ofEntries 64 [Unfolding.ofEntry queryRules "query"]

/-- From inside the source the search answers the source. -/
theorem enclosingRule?_eq_iff_query :
    Tree.ofRules queryRules .initial = .ok queryTree ∧ queryTree.IsEnclosed "source" 3 ∧
      queryTree.FindsEnclosing "source" 3 ∧ queryTree.enclosingRule? 3 "source" = some 2 ∧
      queryTree.IsInnermost "source" 3 2 := by
  have built : Tree.ofRules queryRules .initial = .ok queryTree := rfl
  have enclosed : queryTree.IsEnclosed "source" 3 :=
    ⟨2, by decide +kernel, 3, by decide +kernel, .refl⟩
  have finds := (enclosingRule?_eq_iff built "source" 3).1.2 (.inl enclosed)
  have found : queryTree.enclosingRule? 3 "source" = some 2 := by decide +kernel
  exact ⟨built, enclosed, finds, found, (finds 2).1 found⟩

/-- From the run, which follows the source and is not part of it, the search answers the source as well. -/
theorem enclosingRule?_passed :
    Tree.ofRules queryRules .initial = .ok queryTree ∧
      queryTree.enclosingRule? 4 "source" = some 2 ∧ 2 ∈ queryTree.ancestors 4 ∧
      ¬queryTree.Contains 2 4 ∧ ¬queryTree.IsEnclosed "source" 4 ∧
      ¬queryTree.FindsEnclosing "source" 4 := by
  have found : queryTree.enclosingRule? 4 "source" = some 2 := by decide +kernel
  have outside : ¬queryTree.Contains 2 4 := by
    rintro ⟨first, member, reached⟩
    have hbody : queryTree.body 2 = [3] := by decide +kernel
    rw [hbody] at member
    obtain rfl := List.mem_singleton.1 member
    have hbare : queryTree.below 3 = [] := by decide +kernel
    rcases reached.eq_or with h | ⟨_, hbelow, _⟩
    · cases h
    · rw [hbare] at hbelow
      cases hbelow
  have free : ¬queryTree.IsEnclosed "source" 4 := by
    rintro ⟨rule, isRule, inside⟩
    have honly : ∀ other < queryTree.size, (queryTree.label other).isRule "source" = true → other = 2 := by
      decide +kernel
    have hsize : rule < queryTree.size := lt_size_of_label fun hroot => by
      rw [hroot] at isRule
      cases isRule
    exact outside (honly rule hsize isRule ▸ inside)
  refine ⟨rfl, found, by decide +kernel, outside, free, fun finds => ?_⟩
  exact outside ((finds 2).1 found).inside

end Tree

end ChainGrammar
