import ChainGrammar.Proofs.Position.Count

/-!
# How long chains are

Where no reference is unbounded, chains end: the plain machine makes no more calls than can be told from the
tree (`Plain.After.length_le`), since occurrences are counted and back-edges are limited.

The number is a potential.  From a node on it counts the calls to the end of the definition, with all
occurrences of the rules that are entered on the way (`Tree.callsFrom`), and to a state it adds what the frames of the
stack still allow.  No silent move raises it, and every call takes one from it.
-/

set_option autoImplicit false

namespace ChainGrammar

namespace Tree

variable {tree : Tree} {rules : List Rule} {options : Options}

/-- At most so many calls are made from before a node to the end of its definition while the given number of
back-edges may still be taken.  The comparisons hold in all trees of rules. -/
def callsFrom (tree : Tree) (room id : Nat) : Nat :=
  (match tree.opens? id with
    | none => if (tree.label id).isMethod then 1 else 0
    | some body =>
      (tree.label id).repeats.occurrences * ((tree.body body).map fun first =>
        if (tree.label id).isBackEdge then if 0 < room then callsFrom tree (room - 1) first else 0
        else if id < first ∧ first < tree.size then callsFrom tree room first else 0).sum) +
    match tree.next? id with
    | none => 0
    | some next => if id < next ∧ next < tree.size then callsFrom tree room next else 0
termination_by (room, tree.size - id)

/-- At most so many calls are made from behind a node to the end of its definition. -/
def callsBehind (tree : Tree) (room id : Nat) : Nat :=
  match tree.next? id with
  | none => 0
  | some next => tree.callsFrom room next

/-- At most so many calls are made in one occurrence of a rule. -/
def callsWithin (tree : Tree) (room body : Nat) : Nat :=
  ((tree.body body).map (tree.callsFrom room)).sum

theorem callsFrom_le_callsWithin {room body first : Nat} (member : first ∈ tree.body body) :
    tree.callsFrom room first ≤ tree.callsWithin room body :=
  List.single_le_sum (fun _ _ => Nat.zero_le _) _ (List.mem_map.2 ⟨first, member, rfl⟩)

/-- What hangs from a node of the tree comes behind it. -/
theorem between_of_mem_below (built : Tree.ofRules rules options = .ok tree) {id other : Nat}
    (h : other ∈ tree.below id) : id < other ∧ other < tree.size := by
  obtain ⟨_, _, entries, _, rfl⟩ := ofRules_ok built
  exact ⟨(lt_of_mem_below h).1, lt_size_of_parent? (mem_below_iff.1 h)⟩

/-- What `callsFrom` counts at the node itself: one call of a method, or all occurrences of a rule. -/
def callsAt (tree : Tree) (room id : Nat) : Nat :=
  match tree.opens? id with
  | none => if (tree.label id).isMethod then 1 else 0
  | some body =>
    (tree.label id).repeats.occurrences * ((tree.body body).map fun first =>
      if (tree.label id).isBackEdge then if 0 < room then tree.callsFrom (room - 1) first else 0
      else if id < first ∧ first < tree.size then tree.callsFrom room first else 0).sum

/-- The calls behind a node come on top of those at the node. -/
theorem callsFrom_eq (built : Tree.ofRules rules options = .ok tree) (room id : Nat) :
    tree.callsFrom room id = tree.callsAt room id + tree.callsBehind room id := by
  rw [callsFrom, callsAt, callsBehind]
  congr 1
  cases hnext : tree.next? id with
  | none => rfl
  | some next =>
    exact if_pos (between_of_mem_below built (List.mem_append_right _ (List.mem_of_mem_head? hnext)))

theorem callsBehind_le (built : Tree.ofRules rules options = .ok tree) (room id : Nat) :
    tree.callsBehind room id ≤ tree.callsFrom room id := by
  rw [callsFrom_eq built]
  exact Nat.le_add_left _ _

theorem callsFrom_method (built : Tree.ofRules rules options = .ok tree) (room : Nat) {id : Nat}
    (isMethod : (tree.label id).isMethod = true) :
    tree.callsFrom room id = tree.callsBehind room id + 1 := by
  have hopens : tree.opens? id = none := by
    unfold opens?
    split
    · rename_i hlabel
      rw [hlabel] at isMethod
      cases isMethod
    · rename_i hlabel
      rw [hlabel] at isMethod
      cases isMethod
    · rfl
  rw [callsFrom_eq built, callsAt, hopens, Nat.add_comm]
  simp only [isMethod, if_true]

/-- Where a rule is entered, the calls of all its occurrences are counted, with one back-edge less to come at a
back-edge. -/
theorem callsFrom_opens (built : Tree.ofRules rules options = .ok tree) {room id body : Nat}
    (opens : tree.opens? id = some body)
    (within : (if (tree.label id).isBackEdge then 1 else 0) ≤ room) :
    tree.callsFrom room id = (tree.label id).repeats.occurrences *
      tree.callsWithin (room - if (tree.label id).isBackEdge then 1 else 0) body +
        tree.callsBehind room id := by
  rw [callsFrom_eq built, callsAt, opens]
  dsimp only
  congr 2
  rw [callsWithin]
  refine congrArg List.sum (List.map_congr_left fun first hfirst => ?_)
  cases hback : (tree.label id).isBackEdge with
  | true =>
    rw [hback, if_pos rfl] at within
    simp only [if_true]
    exact if_pos within
  | false =>
    -- the rule is entered at its own node
    obtain ⟨_, rfl⟩ : (∃ name optional repeats, tree.label id = .rule name optional repeats) ∧ body = id := by
      refine (opens?_eq_some_iff.1 opens).resolve_right fun htarget => ?_
      rw [isBackEdge_of_target? htarget] at hback
      cases hback
    simp only [Bool.false_eq_true, if_false, Nat.sub_zero]
    exact if_pos (between_of_mem_below built (List.mem_append_left _ hfirst))

end Tree

namespace Plain

variable {tree : Tree} {rules : List Rule} {options : Options} {entry : Nat} {calls : List Call}

/-- How many more back-edges may be taken on top of a stack. -/
def room (tree : Tree) (stack : List Frame) : Nat := tree.maxDepth - Frame.depthOf tree stack

/-- At most so many calls are made when the frames of a stack are gone on from: further occurrences of each, and what
comes behind the node that opened it. -/
def callsBelow (tree : Tree) : List Frame → Nat
  | [] => 0
  | frame :: stack =>
    ((tree.label frame.origin).repeats.occurrences - frame.iteration) *
        tree.callsWithin (room tree (frame :: stack)) frame.body +
      tree.callsBehind (room tree stack) frame.origin + callsBelow tree stack

/-- At most so many calls are made from a state on. -/
def callsLeft (tree : Tree) : State → Nat
  | .before node stack => tree.callsFrom (room tree stack) node + callsBelow tree stack
  | .behind node stack => tree.callsBehind (room tree stack) node + callsBelow tree stack
  | .complete => 0

/-- A silent move does not raise the number of calls that are left. -/
theorem callsLeft_le_of_silent (built : Tree.ofRules rules options = .ok tree)
    (limited : ∀ id, (tree.label id).repeats ≠ .unbounded) {first second : State}
    (move : Silent tree first second) : callsLeft tree second ≤ callsLeft tree first := by
  cases move with
  | @descend node body alternative stack opens within member =>
    have hdepth := Frame.depthOf_cons tree ⟨body, node, 1⟩ stack
    have hroom : room tree (⟨body, node, 1⟩ :: stack) =
        room tree stack - if (tree.label node).isBackEdge then 1 else 0 := by
      rw [room, hdepth, room, Nat.sub_sub]
    have hcost : (if (tree.label node).isBackEdge then 1 else 0) ≤ room tree stack := by
      rw [hdepth] at within
      rw [room]
      exact Nat.le_sub_of_add_le' within
    have hfirst : tree.callsFrom (room tree (⟨body, node, 1⟩ :: stack)) alternative ≤
        tree.callsWithin (room tree (⟨body, node, 1⟩ :: stack)) body :=
      Tree.callsFrom_le_callsWithin member
    obtain ⟨others, hothers⟩ := Nat.exists_eq_add_of_le' (tree.label node).repeats.one_le_occurrences
    simp only [callsLeft, callsBelow]
    rw [Tree.callsFrom_opens built (Tree.opens?_eq_some_iff.2 opens) hcost, ← hroom, hothers,
      Nat.add_sub_cancel, Nat.succ_mul]
    omega
  | @skip node stack =>
    exact Nat.add_le_add_right (Tree.callsBehind_le built _ node) _
  | next found =>
    simp only [callsLeft, Tree.callsBehind, found, Nat.le_refl]
  | @again node alternative frame stack last allows within member =>
    obtain ⟨horigin, hbody⟩ := frame.following_same (tree.label frame.origin).repeats
    have hiteration : (frame.following (tree.label frame.origin).repeats).iteration = frame.iteration + 1 := by
      cases hrepeats : (tree.label frame.origin).repeats with
      | unbounded => exact absurd hrepeats (limited _)
      | once | times => rfl
    have hroom : room tree (frame.following (tree.label frame.origin).repeats :: stack) =
        room tree (frame :: stack) := by
      rw [room, room, Frame.depthOf_cons, Frame.depthOf_cons, horigin]
    have hfirst : tree.callsFrom (room tree (frame :: stack)) alternative ≤
        tree.callsWithin (room tree (frame :: stack)) frame.body :=
      Tree.callsFrom_le_callsWithin member
    obtain ⟨others, hothers⟩ := Nat.exists_eq_add_of_lt (Repeat.lt_occurrences (limited _) allows)
    have hleft : (tree.label frame.origin).repeats.occurrences - frame.iteration = others + 1 := by omega
    have hfewer : (tree.label frame.origin).repeats.occurrences - (frame.iteration + 1) = others := by omega
    simp only [callsLeft, callsBelow]
    rw [horigin, hbody, hiteration, hroom, hleft, hfewer, Nat.succ_mul]
    omega
  | leave =>
    simp only [callsLeft, callsBelow]
    omega
  | finish => exact Nat.zero_le _

/-- The calls that have been made and those that are left are no more than those at the beginning. -/
theorem After.length_add_callsLeft_le (built : Tree.ofRules rules options = .ok tree)
    (limited : ∀ id, (tree.label id).repeats ≠ .unbounded) {state : State}
    (h : After tree entry calls state) :
    calls.length + callsLeft tree state ≤ callsLeft tree (.before entry []) := by
  induction h with
  | start => simp
  | silent _ move ih => exact le_trans (Nat.add_le_add_left (callsLeft_le_of_silent built limited move) _) ih
  | @call calls node stack name owner params optional args before method fits ih =>
    have hmethod := Tree.callsFrom_method built (room tree stack)
      (by rw [method]; rfl : (tree.label node).isMethod = true)
    simp only [callsLeft, List.length_append, List.length_singleton] at ih ⊢
    omega

/-- Where no reference is unbounded, the machine makes no more calls than are counted from the entry rule. -/
theorem After.length_le (built : Tree.ofRules rules options = .ok tree)
    (limited : ∀ id, (tree.label id).repeats ≠ .unbounded) {state : State}
    (h : After tree entry calls state) : calls.length ≤ tree.callsFrom tree.maxDepth entry :=
  calc calls.length ≤ calls.length + callsLeft tree state := Nat.le_add_right _ _
    _ ≤ callsLeft tree (.before entry []) := h.length_add_callsLeft_le built limited
    _ = tree.callsFrom tree.maxDepth entry := rfl

end Plain

end ChainGrammar
