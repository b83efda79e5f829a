import ChainGrammar.Call
import ChainGrammar.Position.Walk

/-!
# The plain machine

The walk without sharing: a stack is an explicit list of frames, newest first, and nothing is merged
or remembered.  `Plain.Silent` are the moves between calls, and `Plain.Live` says which methods, each
with its stack, are on offer after a list of calls.  `Position.Unfolds` reads the shared nestings of a
position as such lists.
-/

set_option autoImplicit false

namespace ChainGrammar

/-- The number of back-edge frames of a stack. -/
def Frame.depthOf (tree : Tree) (stack : List Frame) : Nat :=
  stack.countP fun frame => (tree.label frame.origin).isBackEdge

/-- The stacks that a nesting of a position stands for. -/
inductive Position.Unfolds (position : Position) : Option Nat → List Frame → Prop where
  | top : Unfolds position none []
  | nested {number : Nat} {nesting : Nesting} {parent : Option Nat} {below : List Frame}
      (found : position.nestings[number]? = some nesting) (member : parent ∈ nesting.parents)
      (rest : Unfolds position parent below) :
      Unfolds position (some number) (nesting.frame :: below)

/-- The methods of a position, each with one of the stacks in which it is met. -/
def Position.Offers (position : Position) (node : Nat) (stack : List Frame) : Prop :=
  ∃ item ∈ position.items, item.node = node ∧ position.Unfolds item.nesting stack

namespace Plain

/-- Where the plain machine stands. -/
inductive State where
  /-- Before a node. -/
  | before (node : Nat) (stack : List Frame)
  /-- Behind a node. -/
  | behind (node : Nat) (stack : List Frame)
  /-- At the end of the entry rule. -/
  | complete

/-- The moves that call no method. -/
inductive Silent (tree : Tree) : State → State → Prop where
  | descend {node body alternative : Nat} {stack : List Frame}
      (opens : (∃ name optional repeats, tree.label node = .rule name optional repeats) ∧ body = node ∨
        tree.target? node = some body)
      (within : Frame.depthOf tree (⟨body, node, 1⟩ :: stack) ≤ tree.maxDepth)
      (member : alternative ∈ tree.body body) :
      Silent tree (.before node stack) (.before alternative (⟨body, node, 1⟩ :: stack))
  | skip {node : Nat} {stack : List Frame} (omissible : (tree.label node).optional = true) :
      Silent tree (.before node stack) (.behind node stack)
  | next {node following : Nat} {stack : List Frame} (found : tree.next? node = some following) :
      Silent tree (.behind node stack) (.before following stack)
  | again {node alternative : Nat} {frame : Frame} {stack : List Frame}
      (last : tree.next? node = none)
      (allows : (tree.label frame.origin).repeats.allowsAnother frame.iteration = true)
      (within : Frame.depthOf tree (frame :: stack) ≤ tree.maxDepth)
      (member : alternative ∈ tree.body frame.body) :
      Silent tree (.behind node (frame :: stack))
        (.before alternative (frame.following (tree.label frame.origin).repeats :: stack))
  | leave {node : Nat} {frame : Frame} {stack : List Frame} (last : tree.next? node = none) :
      Silent tree (.behind node (frame :: stack)) (.behind frame.origin stack)
  | finish {node : Nat} (last : tree.next? node = none) :
      Silent tree (.behind node []) .complete

/-- A state that the machine can be in after a list of calls, started before an entry rule; of each
call only the method and the number of arguments matter. -/
inductive After (tree : Tree) (entry : Nat) : List Call → State → Prop where
  | start : After tree entry [] (.before entry [])
  | silent {calls : List Call} {first second : State} (before : After tree entry calls first)
      (move : Silent tree first second) : After tree entry calls second
  | call {calls : List Call} {node : Nat} {stack : List Frame} {name owner : String}
      {params : List Param} {optional : Bool} {args : List Value}
      (before : After tree entry calls (.before node stack))
      (method : tree.label node = .method name owner params optional)
      (fits : args.length = params.length) :
      After tree entry (calls ++ [⟨name, args⟩]) (.behind node stack)

/-- A method on offer after a list of calls, with its stack. -/
def Live (tree : Tree) (entry : Nat) (calls : List Call) (node : Nat) (stack : List Frame) : Prop :=
  (tree.label node).isMethod = true ∧ After tree entry calls (.before node stack)

/-- May the chain end after a list of calls? -/
def Complete (tree : Tree) (entry : Nat) (calls : List Call) : Prop :=
  After tree entry calls .complete

end Plain

end ChainGrammar
