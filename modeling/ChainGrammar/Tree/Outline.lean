import ChainGrammar.Tree

/-!
# The outline of a tree

One line for each node but the root, depth first.  A node is indented by two blanks for each node between
it and the root, and the first node of an alternative has a bar in front.
-/

set_option autoImplicit false

namespace ChainGrammar

/-- What an outline shows of a node. -/
def Label.text : Label → String
  | .root => ""
  | .method name _ params optional =>
    name ++ Segment.listedNames (params.map Param.text) ++ Segment.optionalMark optional
  | .rule name optional repeats =>
    "<" ++ name ++ ">" ++ repeats.mark ++ Segment.optionalMark optional
  | .backEdge name _ optional repeats =>
    "^<" ++ name ++ ">" ++ repeats.mark ++ Segment.optionalMark optional

namespace Tree

/-- The line of a node. -/
def line (depth : Nat) (alternative : Bool) (label : Label) : String :=
  String.join (List.replicate depth "  ") ++ (if alternative then "| " else "") ++ label.text ++ "\n"

/-- The lines of a node and of what hangs from it; the root has no line and does not indent. -/
def linesFrom (tree : Tree) (depth : Nat) (alternative : Bool) (id : Nat) : List String :=
  let (own, inner) := match tree.label id with
    | .root => ([], depth)
    | label => ([line depth alternative label], depth + 1)
  own ++
    ((tree.body id).attach.flatMap fun ⟨first, member⟩ =>
      have := lt_of_mem_below (List.mem_append_left _ member)
      tree.linesFrom inner true first) ++
    ((tree.children id).attach.flatMap fun ⟨next, member⟩ =>
      have := lt_of_mem_below (List.mem_append_right _ member)
      tree.linesFrom inner false next)
termination_by tree.size - id

/-- The lines of all nodes but the root. -/
def outline (tree : Tree) : String := String.join (tree.linesFrom 0 false 0)

end Tree

end ChainGrammar
