import ChainGrammar.Tree

/-!
# Containment in a tree

A node contains what is reached from the alternatives below it, downwards or further on in a
definition.  What merely follows a node in its definition is not contained in it.
-/

set_option autoImplicit false

namespace ChainGrammar.Tree

/-- The nodes that are reached from a node by going below or behind. -/
inductive Reaches (tree : Tree) (start : Nat) : Nat → Prop where
  | refl : Reaches tree start start
  | down {node first : Nat} (before : Reaches tree start node) (member : first ∈ tree.body node) :
      Reaches tree start first
  | further {node following : Nat} (before : Reaches tree start node)
      (member : following ∈ tree.children node) : Reaches tree start following

/-- Is the second node part of an alternative of the first? -/
def Contains (tree : Tree) (outer inner : Nat) : Prop :=
  ∃ first ∈ tree.body outer, tree.Reaches first inner

end ChainGrammar.Tree
