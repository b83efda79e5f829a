import ChainGrammar.Unfolding

/-!
# The tree of a grammar

The unfolded entry rules laid out as a table: every node has a number, the root has number zero,
and a node is followed by the nodes below it and then by those that come after it in its definition.
Numbers therefore grow from a node to everything below and after it, and the node that a node hangs
from has a smaller number (`Node.Fits`).  Going up and going down both come to an end for this reason.
-/

set_option autoImplicit false

namespace ChainGrammar

/-- A node with its neighbours: `body` holds the first node of each alternative below it,
`children` what comes after it (the entry rules, for the root), `parent` the node it hangs from. -/
structure Node where
  label : Label
  body : List Nat
  children : List Nat
  parent : Option Nat
  deriving DecidableEq, Inhabited

/-- A node that can have the given number: it hangs from a smaller number, and only larger ones hang
from it. -/
structure Node.Fits (node : Node) (id : Nat) : Prop where
  above : ∀ p, node.parent = some p → p < id
  below : ∀ next ∈ node.body ++ node.children, id < next

namespace Unfolding

mutual

/-- The number of nodes of an unfolded definition. -/
def size : Unfolding → Nat
  | .done => 0
  | .step _ body next => 1 + sizes body + next.size

/-- The number of nodes of several unfolded definitions. -/
def sizes : List Unfolding → Nat
  | [] => 0
  | first :: rest => first.size + sizes rest

end

/-- The first node of an unfolded definition that is laid out from `base` on. -/
def head (base : Nat) : Unfolding → List Nat
  | .done => []
  | .step .. => [base]

/-- The first nodes of several unfolded definitions that are laid out from `base` on. -/
def heads (base : Nat) : List Unfolding → List Nat
  | [] => []
  | first :: rest => first.head base ++ heads (base + first.size) rest

mutual

/-- The nodes of an unfolded definition that hangs from `parent`, numbered from `base` on. -/
def nodes (parent base : Nat) : Unfolding → List Node
  | .done => []
  | .step label body next =>
    let after := base + 1 + sizes body
    ⟨label, heads (base + 1) body, next.head after, some parent⟩ ::
      (nodesOfAll base (base + 1) body ++ nodes base after next)

/-- The nodes of several unfolded definitions that hang from `parent`, numbered from `base` on. -/
def nodesOfAll (parent base : Nat) : List Unfolding → List Node
  | [] => []
  | first :: rest => nodes parent base first ++ nodesOfAll parent (base + first.size) rest

end

mutual

theorem length_nodes (parent base : Nat) (u : Unfolding) : (u.nodes parent base).length = u.size := by
  cases u with
  | done => rfl
  | step label body next =>
    simp only [nodes, size, List.length_cons, List.length_append,
      length_nodesOfAll base (base + 1) body, length_nodes base _ next]
    omega

theorem length_nodesOfAll (parent base : Nat) (us : List Unfolding) :
    (nodesOfAll parent base us).length = sizes us := by
  cases us with
  | nil => rfl
  | cons first rest =>
    simp only [nodesOfAll, sizes, List.length_append, length_nodes parent base first,
      length_nodesOfAll parent _ rest]

end

theorem le_of_mem_head {base id : Nat} {u : Unfolding} (h : id ∈ u.head base) : base ≤ id := by
  cases u with
  | done => cases h
  | step => exact Nat.le_of_eq (List.mem_singleton.1 h).symm

theorem le_of_mem_heads {base id : Nat} {us : List Unfolding} (h : id ∈ heads base us) : base ≤ id := by
  induction us generalizing base with
  | nil => cases h
  | cons first rest ih =>
    rcases List.mem_append.1 h with h | h
    · exact le_of_mem_head h
    · exact Nat.le_of_add_right_le (ih h)

/-- The nodes of a list can be numbered from `base` on. -/
def Fit (base : Nat) (nodes : List Node) : Prop :=
  ∀ (i : Nat) (node : Node), nodes[i]? = some node → node.Fits (base + i)

theorem Fit.nil {base : Nat} : Fit base [] := nofun

theorem Fit.append {base : Nat} {first second : List Node} (h₁ : Fit base first)
    (h₂ : Fit (base + first.length) second) : Fit base (first ++ second) := by
  intro i node hi
  rcases Nat.lt_or_ge i first.length with h | h
  · rw [List.getElem?_append_left h] at hi
    exact h₁ i node hi
  · rw [List.getElem?_append_right h] at hi
    have hnumber : base + first.length + (i - first.length) = base + i := by omega
    exact hnumber ▸ h₂ _ node hi

theorem Fit.cons {base : Nat} {node : Node} {rest : List Node} (h₁ : node.Fits base)
    (h₂ : Fit (base + 1) rest) : Fit base (node :: rest) := by
  have single : Fit base [node] := by
    intro i other hi
    cases i with
    | zero =>
      obtain rfl : node = other := by simpa using hi
      exact h₁
    | succ i => simp at hi
  exact single.append h₂

mutual

theorem fit_nodes {parent base : Nat} (h : parent < base) (u : Unfolding) :
    Fit base (u.nodes parent base) := by
  cases u with
  | done => exact .nil
  | step label body next =>
    refine .cons ⟨fun p hp => ?_, fun other hother => ?_⟩ (.append ?_ ?_)
    · obtain rfl : parent = p := by simpa using hp
      exact h
    · rcases List.mem_append.1 hother with hother | hother
      · exact le_of_mem_heads hother
      · have := le_of_mem_head hother
        omega
    · exact fit_nodesOfAll (Nat.lt_succ_self base) body
    · rw [length_nodesOfAll]
      exact fit_nodes (by omega) next

theorem fit_nodesOfAll {parent base : Nat} (h : parent < base) (us : List Unfolding) :
    Fit base (nodesOfAll parent base us) := by
  cases us with
  | nil => exact .nil
  | cons first rest =>
    refine .append (fit_nodes h first) ?_
    rw [length_nodes]
    exact fit_nodesOfAll (by omega) rest

end

end Unfolding

/-- The nodes of a grammar, with the limit on nested back-edges. -/
structure Tree where
  nodes : Array Node
  maxDepth : Nat
  fits : ∀ (id : Nat) (node : Node), nodes[id]? = some node → node.Fits id
  deriving DecidableEq

namespace Tree

/-- The root above the given entry rules, which are laid out from one on. -/
def rootNode (entries : List Unfolding) : Node := ⟨.root, [], Unfolding.heads 1 entries, none⟩

/-- Lay out the unfolded entry rules. -/
def ofEntries (maxDepth : Nat) (entries : List Unfolding) : Tree where
  nodes := (rootNode entries :: Unfolding.nodesOfAll 0 1 entries).toArray
  maxDepth := maxDepth
  fits := by
    have h : Unfolding.Fit 0 (rootNode entries :: Unfolding.nodesOfAll 0 1 entries) :=
      .cons ⟨nofun, fun _ hnext => Unfolding.le_of_mem_heads hnext⟩
        (Unfolding.fit_nodesOfAll Nat.zero_lt_one entries)
    intro id node hid
    simpa using h id node (by simpa using hid)

instance : Inhabited Tree := ⟨ofEntries 1 []⟩

/-- The number of nodes, the root included. -/
def size (tree : Tree) : Nat := tree.nodes.size

/-- Is there no node but the root? -/
def isEmpty (tree : Tree) : Bool := decide (tree.size ≤ 1)

/-- The node of the given number. -/
def node? (tree : Tree) (id : Nat) : Option Node := tree.nodes[id]?

/-- What a node stands for. -/
def label (tree : Tree) (id : Nat) : Label := ((tree.node? id).map Node.label).getD .root

/-- The first nodes of the alternatives below a node. -/
def body (tree : Tree) (id : Nat) : List Nat := ((tree.node? id).map Node.body).getD []

/-- The nodes after a node. -/
def children (tree : Tree) (id : Nat) : List Nat := ((tree.node? id).map Node.children).getD []

/-- The nodes that hang from a node: those that begin its alternatives, then those after it. -/
def below (tree : Tree) (id : Nat) : List Nat := tree.body id ++ tree.children id

theorem lt_of_mem_below {tree : Tree} {id next : Nat} (h : next ∈ tree.below id) :
    id < next ∧ id < tree.size := by
  cases hnode : tree.nodes[id]? with
  | none => simp [below, body, children, node?, hnode] at h
  | some node =>
    refine ⟨(tree.fits id node hnode).below next ?_, (Array.getElem?_eq_some_iff.1 hnode).1⟩
    simpa [below, body, children, node?, hnode] using h

/-- The node after a node in its definition. -/
def next? (tree : Tree) (id : Nat) : Option Nat := (tree.children id).head?

/-- The node that a node hangs from. -/
def parent? (tree : Tree) (id : Nat) : Option Nat := (tree.node? id).bind Node.parent

theorem parent?_lt {tree : Tree} {id p : Nat} (h : tree.parent? id = some p) : p < id := by
  obtain ⟨node, hn, hp⟩ := Option.bind_eq_some_iff.1 h
  exact (tree.fits id node hn).above p hp

/-- The nodes from which a node hangs, nearest first. -/
def ancestors (tree : Tree) (id : Nat) : List Nat :=
  match h : tree.parent? id with
  | none => []
  | some p =>
    have := parent?_lt h
    p :: tree.ancestors p
termination_by id

/-- The nodes of the entry rules. -/
def entryPoints (tree : Tree) : List Nat := tree.children 0

/-- The names of the entry rules. -/
def entryNames (tree : Tree) : List String := tree.entryPoints.map fun id => (tree.label id).name

/-- The node of the entry rule of the given name. -/
def entryPoint? (tree : Tree) (name : String) : Option Nat :=
  tree.entryPoints.find? fun id => (tree.label id).name == name

/-- The nearest of the nodes from which `start` hangs that unfolds the rule of the given name. -/
def enclosingRule? (tree : Tree) (start : Nat) (name : String) : Option Nat :=
  (tree.ancestors start).find? fun id => (tree.label id).isRule name

/-- The rule node that a back-edge returns to. -/
def target? (tree : Tree) (id : Nat) : Option Nat :=
  match tree.label id with
  | .backEdge name .. => tree.enclosingRule? id name
  | _ => none

/-- The names of the methods that are met from a node on: that of the node itself, then those that are
met from each of the nodes that hang from it. -/
def methodNamesFrom (tree : Tree) (id : Nat) : List String :=
  (if (tree.label id).isMethod then [(tree.label id).name] else []) ++
    (tree.below id).attach.flatMap fun ⟨next, member⟩ =>
      have := lt_of_mem_below member
      tree.methodNamesFrom next
termination_by tree.size - id

theorem methodNamesFrom_eq (tree : Tree) (id : Nat) :
    tree.methodNamesFrom id = (if (tree.label id).isMethod then [(tree.label id).name] else []) ++
      (tree.below id).flatMap tree.methodNamesFrom := by
  rw [methodNamesFrom, List.flatMap_subtype fun _ _ => rfl, List.unattach_attach]

/-- The names of all methods, depth first from the root. -/
def methodNames (tree : Tree) : List String := tree.methodNamesFrom 0

end Tree

end ChainGrammar
