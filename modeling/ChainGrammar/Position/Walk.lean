import ChainGrammar.Position.Basic
import Std.Data.TreeSet

/-!
# Walking to the next methods

From an entry rule, or from the methods that have just been called, a walk goes through the tree
until it stands before methods on every branch.  It stops at a method, goes on past what may be left
out, and at the end of a definition goes back to the node that opened the rule: there it opens the
next occurrence if one is allowed, and goes on behind the node.

The walk works off an agenda from the front, and puts the tasks that a task leads to in front of the
others, so that the methods are found in the order of the alternatives.  Three tables keep it finite:
an item is entered once, a frame is opened once at each depth and afterwards only gets further parents,
and a nesting is finished once.  A parent that arrives after its nesting was finished is resumed at
once, so nothing is lost by the sharing.

Give each task a weight: one for coming to a node, two for going on behind one, `size + 1` for opening
a frame and `size + 4` for leaving one.  A task that adds to no table leads to tasks of less weight than
its own, and what an entry of a table adds is bounded as well.  `budget` is the weight of the agenda
with what the room in the tables can add to it.
-/

set_option autoImplicit false

namespace ChainGrammar

/-- Something left to do on a walk. -/
inductive Task where
  /-- Come to a node. -/
  | enter (item : Item)
  /-- Open a frame on top of a nesting and enter its definitions. -/
  | descend (frame : Frame) (parent : Option Nat)
  /-- Go on behind a node. -/
  | advance (item : Item)
  /-- Leave a finished nesting for one of the nestings below it. -/
  | resume (number : Nat) (parent : Option Nat)
  deriving DecidableEq, Inhabited

/-- A walk under way. -/
structure Walk where
  /-- The methods found so far. -/
  found : Array Item := #[]
  /-- Has the walk come to the end of the entry rule? -/
  complete : Bool := false
  nestings : Std.TreeMap Nat Nesting := ∅
  nextNesting : Nat := 0
  /-- The nestings opened on this walk. -/
  opened : Std.TreeMap Level Nat := ∅
  /-- The items entered on this walk. -/
  entered : Std.TreeSet Item := ∅
  /-- The nestings finished on this walk. -/
  finished : Std.TreeSet Nat := ∅

/-- The frame of the next occurrence; occurrences without a limit are not counted. -/
def Frame.following (frame : Frame) : Repeat → Frame
  | .unbounded => frame
  | _ => { frame with iteration := frame.iteration + 1 }

namespace Walk

/-- The nestings below a nesting. -/
def parents (walk : Walk) (number : Nat) : List (Option Nat) :=
  ((walk.nestings[number]?).map Nesting.parents).getD []

/-- The depth of a nesting; nothing is open at the top level. -/
def depth (walk : Walk) : Option Nat → Nat
  | none => 0
  | some number => ((walk.nestings[number]?).map fun nesting => nesting.depth).getD 0

/-- Put one more nesting below a nesting. -/
def addParent (walk : Walk) (number : Nat) (parent : Option Nat) : Walk :=
  { walk with
    nestings := walk.nestings.modify number fun nesting =>
      { nesting with parents := nesting.parents ++ [parent] } }

/-- Open a nesting that was not open yet. -/
def openNesting (walk : Walk) (level : Level) (parent : Option Nat) : Walk :=
  { walk with
    nestings := walk.nestings.insert walk.nextNesting ⟨level, [parent]⟩
    nextNesting := walk.nextNesting + 1
    opened := walk.opened.insert level walk.nextNesting }

/-- Come to a node, unless this has been done before. -/
def enter (tree : Tree) (walk : Walk) (item : Item) : Walk × List Task :=
  if walk.entered.contains item then (walk, [])
  else
    let walk := { walk with entered := walk.entered.insert item }
    let past := if (tree.label item.node).optional then [Task.advance item] else []
    match tree.label item.node with
    | .root => (walk, past)
    | .method .. => ({ walk with found := walk.found.push item }, past)
    | .rule .. => (walk, .descend ⟨item.node, item.node, 1⟩ item.nesting :: past)
    | .backEdge .. =>
      match tree.target? item.node with
      | none => (walk, past)
      | some target => (walk, .descend ⟨target, item.node, 1⟩ item.nesting :: past)

/-- The level of a frame that is opened on top of a nesting. -/
def levelOn (tree : Tree) (walk : Walk) (frame : Frame) (parent : Option Nat) : Level :=
  ⟨frame, walk.depth parent + if (tree.label frame.origin).isBackEdge then 1 else 0⟩

/-- Open a frame, unless it would be too deep; where the frame is open already at this depth, the
nesting below it joins its parents. -/
def descend (tree : Tree) (walk : Walk) (frame : Frame) (parent : Option Nat) : Walk × List Task :=
  let level := walk.levelOn tree frame parent
  let alternatives := fun number : Nat =>
    (tree.body frame.body).map fun node => Task.enter ⟨node, some number⟩
  if tree.maxDepth < level.depth then (walk, [])
  else
    match walk.opened[level]? with
    | none => (walk.openNesting level parent, alternatives walk.nextNesting)
    | some number =>
      if (walk.parents number).contains parent then (walk, alternatives number)
      else
        let late := if walk.finished.contains number then [Task.resume number parent] else []
        (walk.addParent number parent, late ++ alternatives number)

/-- Go on behind a node; behind the last one of a definition, finish the nesting. -/
def advance (tree : Tree) (walk : Walk) (item : Item) : Walk × List Task :=
  match tree.next? item.node with
  | some next => (walk, [.enter ⟨next, item.nesting⟩])
  | none =>
    match item.nesting with
    | none => ({ walk with complete := true }, [])
    | some number =>
      if walk.finished.contains number then (walk, [])
      else
        ({ walk with finished := walk.finished.insert number },
          (walk.parents number).map (Task.resume number))

/-- Open the next occurrence of a finished frame if one is allowed, and go on behind its origin. -/
def resume (tree : Tree) (walk : Walk) (number : Nat) (parent : Option Nat) : Walk × List Task :=
  match walk.nestings[number]? with
  | none => (walk, [])
  | some nesting =>
    let frame := nesting.frame
    let repeats := (tree.label frame.origin).repeats
    let again :=
      if repeats.allowsAnother frame.iteration then [Task.descend (frame.following repeats) parent]
      else []
    (walk, again ++ [.advance ⟨frame.origin, parent⟩])

/-- Handle one task; the answer holds the tasks that it leads to. -/
def perform (tree : Tree) (walk : Walk) : Task → Walk × List Task
  | .enter item => walk.enter tree item
  | .descend frame parent => walk.descend tree frame parent
  | .advance item => walk.advance tree item
  | .resume number parent => walk.resume tree number parent

/-- Handle the tasks of an agenda, at most as many as the given number. -/
def runFor (tree : Tree) : Nat → Walk → List Task → Walk × List Task
  | 0, walk, agenda => (walk, agenda)
  | _ + 1, walk, [] => (walk, [])
  | limit + 1, walk, task :: agenda =>
    let (walk, led) := walk.perform tree task
    runFor tree limit walk (led ++ agenda)

/-- The largest number of consecutive occurrences that a node of the tree counts. -/
def longestRepeat (tree : Tree) : Nat :=
  tree.nodes.foldl
    (fun longest node =>
      match node.label.repeats with
      | .times limit => max longest limit.toNat
      | _ => longest)
    1

/-- How many levels there are in a tree, which bounds the nestings that one walk opens. -/
def levelCount (tree : Tree) : Nat :=
  tree.size * tree.size * longestRepeat tree * (tree.maxDepth + 1)

/-- As many tasks as a walk can handle.  With `size` nodes and room for `room` nestings, the tables take
`size * (room + 1)` entered items, `room * (room + 1)` parents and `room` finished nestings; an item or a
parent adds a weight of at most `size + 4`, and a finished nesting that much for each of its parents. -/
def budget (tree : Tree) (walk : Walk) (agenda : List Task) : Nat :=
  let room := walk.nestings.size + levelCount tree
  (tree.size + 4) * (agenda.length + (room + 1) * (tree.size + 2 * room))

/-- Handle an agenda to its end. -/
def run (tree : Tree) (walk : Walk) (agenda : List Task) : Walk :=
  (runFor tree (walk.budget tree agenda) walk agenda).1

/-- Where a walk has led. -/
def position (walk : Walk) : Position :=
  ⟨walk.found.toList, walk.complete, walk.nestings, walk.nextNesting⟩

end Walk

namespace Position

/-- The position at the beginning of an entry rule. -/
def start (tree : Tree) (entry : Nat) : Position :=
  (Walk.run tree {} [.enter ⟨entry, none⟩]).position

/-- The position after a call of a method, which the given items offered. -/
def after (tree : Tree) (position : Position) (items : List Item) : Position :=
  (Walk.run tree { nestings := position.nestingsOf items, nextNesting := position.nextNesting }
    (items.map Task.advance)).position

end Position

end ChainGrammar
