import ChainGrammar.Tree.OfRules

/-!
# Putting a tree together

The tree of a list of rules as it grows, node by node.  A node is added when it is met and gets its number; what
is below it follows, and only then is it hung on its place.  The rules whose definitions are being added are kept
on a path: a reference to one of them adds a back-edge, a reference to any other rule attaches a new node of it.
An argument is declared when it is met, at the last method that has been added for its definition.

What is left to do is an agenda, worked off from the front.  Attaching a rule leaves behind a task that takes the
rule off the path again, so the agenda holds one such task for each rule that is being attached.
-/

set_option autoImplicit false

namespace ChainGrammar

/-- A tree that is being put together, with the rules that are being attached. -/
structure Assembly where
  nodes : List Node
  path : List String
  deriving DecidableEq, Inhabited

namespace Assembly

/-- Where a node hangs: at the beginning of an alternative, or behind another node. -/
inductive Place where
  | within (rule : Nat)
  | behind (node : Nat)
  deriving DecidableEq, Inhabited

/-- Something left to do. -/
inductive Task where
  /-- Attach an entry rule and hang it behind the root. -/
  | entry (rule : Rule)
  /-- Add a node for a rule and then its definitions. -/
  | attach (rule : Rule) (optional : Bool) (repeats : Repeat)
  /-- Add what a reference in the rule `owner` stands for. -/
  | refer (owner target : String) (optional : Bool) (repeats : Repeat)
  /-- Add the rest of a definition of the rule `owner`, whose last method so far is given. -/
  | define (owner : String) (place : Place) (method : Option Nat) (rest : Definition)
  /-- Hang a node on its place. -/
  | link (place : Place) (id : Nat)
  /-- Take a rule whose definitions have been added off the path. -/
  | leave (rule : String)
  deriving DecidableEq, Inhabited

/-- The node at which something hangs. -/
def Place.node : Place → Nat
  | .within rule => rule
  | .behind node => node

/-- Let the nodes of the given numbers follow at a place. -/
def Place.hang (place : Place) (ids : List Nat) (nodes : List Node) : List Node :=
  match place with
  | .within rule => nodes.modify rule fun node => { node with body := node.body ++ ids }
  | .behind before => nodes.modify before fun node => { node with children := node.children ++ ids }

/-- Nothing but the root. -/
def bare : Assembly := ⟨[⟨.root, [], [], none⟩], []⟩

/-- The assembly with one more node, which does not hang anywhere yet. -/
def add (assembly : Assembly) (label : Label) : Assembly :=
  { assembly with nodes := assembly.nodes ++ [⟨label, [], [], none⟩] }

/-- Hang a node on its place. -/
def link (assembly : Assembly) (place : Place) (id : Nat) : Assembly :=
  { assembly with
    nodes := (place.hang [id] assembly.nodes).modify id fun node =>
      { node with parent := some place.node } }

/-- Declare more arguments of a method, if there is one. -/
def declared (method : Option Nat) (params : List Param) (nodes : List Node) : List Node :=
  match method with
  | none => nodes
  | some id => nodes.modify id fun node => { node with label := node.label.declare params }

/-- Declare one more argument of a method, if there is one. -/
def declare (assembly : Assembly) (method : Option Nat) (param : Param) : Assembly :=
  { assembly with nodes := declared method [param] assembly.nodes }

/-- Add the next segment of a definition.  A symbol is the last method from there on; references leave it as it
is, so an argument behind them is still declared at the symbol before them. -/
def define (assembly : Assembly) (owner : String) (place : Place) (method : Option Nat) :
    Definition → Assembly × List Task
  | [] => (assembly, [])
  | .symbol name params optional :: rest =>
    let id := assembly.nodes.length
    (assembly.add (.method name owner (params.map .named) optional),
      [.link place id, .define owner (.behind id) (some id) rest])
  | .reference target optional repeats :: rest =>
    let id := assembly.nodes.length
    (assembly,
      [.refer owner target optional repeats, .link place id, .define owner (.behind id) method rest])
  | .parameter name :: rest => (assembly.declare method (.named name), [.define owner place method rest])
  | .value :: rest => (assembly.declare method .value, [.define owner place method rest])
  | .alternation :: rest => (assembly, [.define owner place method rest])

/-- Handle one task; the answer holds the tasks that it leads to, unless a reference is undefined. -/
def perform (rules : List Rule) (assembly : Assembly) : Task → Except RuleError (Assembly × List Task)
  | .entry rule =>
    .ok (assembly, [.attach rule false .once, .link (.behind 0) assembly.nodes.length])
  | .attach rule optional repeats =>
    let grown := assembly.add (.rule rule.name optional repeats)
    .ok ({ grown with path := grown.path.insert rule.name },
      rule.definitions.map (Task.define rule.name (.within assembly.nodes.length) none) ++
        [.leave rule.name])
  | .refer owner target optional repeats =>
    match Rules.find? rules target with
    | none => .error (.undefinedReference owner target)
    | some rule =>
      if rule.name ∈ assembly.path then
        .ok (assembly.add (.backEdge rule.name owner optional repeats), [])
      else .ok (assembly, [.attach rule optional repeats])
  | .define owner place method rest => .ok (assembly.define owner place method rest)
  | .link place id => .ok (assembly.link place id, [])
  | .leave name => .ok ({ assembly with path := assembly.path.erase name }, [])

/-- Handle the tasks of an agenda, at most as many as the given number. -/
def runFor (rules : List Rule) :
    Nat → Assembly → List Task → Except RuleError (Assembly × List Task)
  | 0, assembly, agenda => .ok (assembly, agenda)
  | _ + 1, assembly, [] => .ok (assembly, [])
  | limit + 1, assembly, task :: agenda =>
    match assembly.perform rules task with
    | .error fault => .error fault
    | .ok (assembly, led) => runFor rules limit assembly (led ++ agenda)

end Assembly

end ChainGrammar
