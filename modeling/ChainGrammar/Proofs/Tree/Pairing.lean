import ChainGrammar.Proofs.Rule.Order
import Mathlib.Data.List.Forall2

/-!
# The same unfolding in two trees

An unfolded rule that is laid out in two trees takes other numbers in each, but place by place its nodes
correspond: they have the same label, what hangs from them corresponds, and so does the node that a
back-edge leads to (`Tree.Pairing`, `Tree.pairing_of_holds`).  The trees of reordered rules are such trees for
each entry rule (`Tree.exists_pairing`).
-/

set_option autoImplicit false

namespace ChainGrammar

/-- Nodes that say the same, up to the numbers of other nodes. -/
structure Node.Paired (pair up : Nat → Nat → Prop) (node node' : Node) : Prop where
  label : node.label = node'.label
  body : List.Forall₂ pair node.body node'.body
  children : List.Forall₂ pair node.children node'.children
  parent : Option.Rel up node.parent node'.parent

/-- The nodes of two trees correspond one to one, with what is below and after them. -/
structure Tree.Pairing (tree other : Tree) (pair : Nat → Nat → Prop) : Prop where
  left : ∀ {id id' id'' : Nat}, pair id id' → pair id id'' → id' = id''
  right : ∀ {id id' id'' : Nat}, pair id id'' → pair id' id'' → id = id'
  label : ∀ {id id' : Nat}, pair id id' → tree.label id = other.label id'
  body : ∀ {id id' : Nat}, pair id id' → List.Forall₂ pair (tree.body id) (other.body id')
  children : ∀ {id id' : Nat}, pair id id' → List.Forall₂ pair (tree.children id) (other.children id')
  target : ∀ {id id' : Nat}, pair id id' → Option.Rel pair (tree.target? id) (other.target? id')

/-- What corresponds to something is something. -/
theorem exists_of_rel_some {α β : Type} {related : α → β → Prop} {a : α} {answer : Option β}
    (h : Option.Rel related (some a) answer) : ∃ b, answer = some b ∧ related a b := by
  cases h with
  | some hrelated => exact ⟨_, rfl, hrelated⟩

/-- What corresponds to nothing is nothing. -/
theorem eq_none_of_rel_none {α β : Type} {related : α → β → Prop} {answer : Option β}
    (h : Option.Rel related none answer) : answer = none := by
  cases h with
  | none => rfl

/-- The first elements of lists that correspond for which corresponding tests succeed. -/
theorem rel_find? {α β : Type} {related : α → β → Prop} {p : α → Bool} {q : β → Bool} {l : List α}
    {l' : List β} (same : ∀ a b, related a b → p a = q b) (h : List.Forall₂ related l l') :
    Option.Rel related (l.find? p) (l'.find? q) := by
  induction h with
  | nil => exact .none
  | @cons a b _ _ first _ ih =>
    rw [List.find?_cons, List.find?_cons, ← same a b first]
    cases p a with
    | true => exact .some first
    | false => exact ih

namespace Unfolding

variable {pair up : Nat → Nat → Prop}

theorem forall₂_head {base base' : Nat} (u : Unfolding) (h : ∀ i < u.size, pair (base + i) (base' + i)) :
    List.Forall₂ pair (u.head base) (u.head base') := by
  cases u with
  | done => exact .nil
  | step label body next =>
    refine .cons (h 0 ?_) .nil
    rw [size]
    omega

/-- The first nodes of definitions that are laid out twice. -/
theorem forall₂_heads {base base' : Nat} (us : List Unfolding)
    (h : ∀ i < sizes us, pair (base + i) (base' + i)) :
    List.Forall₂ pair (heads base us) (heads base' us) := by
  induction us generalizing base base' with
  | nil => exact .nil
  | cons first rest ih =>
    rw [sizes] at h
    have hfirst := forall₂_head first fun i hi => h i (by omega)
    have hrest := ih fun i hi => by
      have hpair := h (first.size + i) (by omega)
      rwa [← Nat.add_assoc, ← Nat.add_assoc] at hpair
    exact List.rel_append hfirst hrest

mutual

/-- A definition that is laid out twice has corresponding nodes, place by place. -/
theorem forall₂_nodes (upwards : ∀ id id', pair id id' → up id id') {parent parent' base base' : Nat}
    (hparent : up parent parent') (u : Unfolding) (h : ∀ i < u.size, pair (base + i) (base' + i)) :
    List.Forall₂ (Node.Paired pair up) (u.nodes parent base) (u.nodes parent' base') := by
  cases u with
  | done => exact .nil
  | step label body next =>
    rw [size] at h
    have hfirst : pair base base' := h 0 (by omega)
    have hbody : ∀ i < sizes body, pair (base + 1 + i) (base' + 1 + i) := fun i hi => by
      have hpair := h (1 + i) (by omega)
      rwa [← Nat.add_assoc, ← Nat.add_assoc] at hpair
    have hnext : ∀ i < next.size, pair (base + 1 + sizes body + i) (base' + 1 + sizes body + i) :=
      fun i hi => by
        have hpair := h (1 + sizes body + i) (by omega)
        simpa only [← Nat.add_assoc] using hpair
    refine .cons ⟨rfl, forall₂_heads body hbody, forall₂_head next hnext, .some hparent⟩ ?_
    exact List.rel_append (forall₂_nodesOfAll upwards (upwards _ _ hfirst) body hbody)
      (forall₂_nodes upwards (upwards _ _ hfirst) next hnext)

/-- Definitions that are laid out twice have corresponding nodes, place by place. -/
theorem forall₂_nodesOfAll (upwards : ∀ id id', pair id id' → up id id')
    {parent parent' base base' : Nat} (hparent : up parent parent') (us : List Unfolding)
    (h : ∀ i < sizes us, pair (base + i) (base' + i)) :
    List.Forall₂ (Node.Paired pair up) (nodesOfAll parent base us) (nodesOfAll parent' base' us) := by
  cases us with
  | nil => exact .nil
  | cons first rest =>
    rw [sizes] at h
    have hrest : ∀ i < sizes rest, pair (base + first.size + i) (base' + first.size + i) :=
      fun i hi => by
        have hpair := h (first.size + i) (by omega)
        rwa [← Nat.add_assoc, ← Nat.add_assoc] at hpair
    exact List.rel_append (forall₂_nodes upwards hparent first fun i hi => h i (by omega))
      (forall₂_nodesOfAll upwards hparent rest hrest)

end

end Unfolding

namespace Tree

variable {tree other : Tree}

/-- Places of equal distance from two bases. -/
def Shifted (base base' size : Nat) (id id' : Nat) : Prop :=
  ∃ i < size, id = base + i ∧ id' = base' + i

/-- Nodes that correspond, and the roots. -/
def OrRoots (pair : Nat → Nat → Prop) (id id' : Nat) : Prop := pair id id' ∨ id = 0 ∧ id' = 0

/-- Nothing is above the first node. -/
theorem parent?_zero (tree : Tree) : tree.parent? 0 = none := by
  cases hparent : tree.parent? 0 with
  | none => rfl
  | some p => exact absurd (parent?_lt hparent) (Nat.not_lt_zero p)

/-- The way up from nodes that correspond, if what they hang from does. -/
theorem forall₂_ancestors {up : Nat → Nat → Prop}
    (parents : ∀ {id id'}, up id id' → Option.Rel up (tree.parent? id) (other.parent? id'))
    {id id' : Nat} (h : up id id') : List.Forall₂ up (tree.ancestors id) (other.ancestors id') := by
  induction id using Nat.strongRecOn generalizing id' with
  | _ id ih =>
    cases hparent : tree.parent? id with
    | none =>
      have hparent' := eq_none_of_rel_none (hparent ▸ parents h)
      rw [ancestors_of_parent?_none hparent, ancestors_of_parent?_none hparent']
      exact .nil
    | some p =>
      obtain ⟨p', hparent', hup⟩ := exists_of_rel_some (hparent ▸ parents h)
      rw [ancestors_of_parent? hparent, ancestors_of_parent? hparent']
      exact .cons hup (ih p (parent?_lt hparent) hup)

/-- Back-edges lead to corresponding nodes if the ways up correspond. -/
theorem rel_target? {pair : Nat → Nat → Prop} (root : tree.label 0 = .root)
    (root' : other.label 0 = .root) (labels : ∀ {id id'}, pair id id' → tree.label id = other.label id')
    {id id' : Nat} (h : pair id id')
    (ways : List.Forall₂ (OrRoots pair) (tree.ancestors id) (other.ancestors id')) :
    Option.Rel pair (tree.target? id) (other.target? id') := by
  unfold target?
  rw [← labels h]
  cases tree.label id with
  | backEdge name =>
    have same : ∀ a b, OrRoots pair a b →
        (tree.label a).isRule name = (other.label b).isRule name := by
      rintro a b (hpair | ⟨rfl, rfl⟩)
      · rw [labels hpair]
      · rw [root, root']
    have hfound := rel_find? same ways
    dsimp only
    unfold enclosingRule?
    cases hfirst : (tree.ancestors id).find? (fun id => (tree.label id).isRule name) with
    | none =>
      rw [hfirst] at hfound
      rw [eq_none_of_rel_none hfound]
      exact .none
    | some rule =>
      rw [hfirst] at hfound
      obtain ⟨rule', hrule', hpair | ⟨rfl, rfl⟩⟩ := exists_of_rel_some hfound
      · rw [hrule']
        exact .some hpair
      · -- the root is not a rule
        have hrule := List.find?_some hfirst
        rw [root] at hrule
        cases hrule
  | root | method | rule => exact .none

/-- A rule that is laid out below the roots of two trees has corresponding nodes in them. -/
theorem pairing_of_holds {u : Unfolding} {base base' : Nat} (root : tree.label 0 = .root)
    (root' : other.label 0 = .root) (holds : tree.Holds base (u.nodes 0 base))
    (holds' : other.Holds base' (u.nodes 0 base')) :
    tree.Pairing other (Shifted base base' u.size) := by
  -- the roots correspond to each other on the way up, but they are not among the nodes of the rule
  have hnodes : List.Forall₂ (Node.Paired (Shifted base base' u.size) (OrRoots (Shifted base base' u.size)))
      (u.nodes 0 base) (u.nodes 0 base') :=
    Unfolding.forall₂_nodes (fun _ _ => .inl) (.inr ⟨rfl, rfl⟩) u fun i hi => ⟨i, hi, rfl, rfl⟩
  have each : ∀ {id id'}, Shifted base base' u.size id id' → ∃ node node', tree.node? id = some node ∧
      other.node? id' = some node' ∧
      node.Paired (Shifted base base' u.size) (OrRoots (Shifted base base' u.size)) node' := by
    rintro _ _ ⟨i, hi, rfl, rfl⟩
    have hlow : i < (u.nodes 0 base).length := by rwa [Unfolding.length_nodes]
    have hlow' : i < (u.nodes 0 base').length := by rwa [Unfolding.length_nodes]
    exact ⟨_, _, holds i _ (List.getElem?_eq_getElem hlow), holds' i _ (List.getElem?_eq_getElem hlow'),
      hnodes.get hlow hlow'⟩
  have labels : ∀ {id id'}, Shifted base base' u.size id id' → tree.label id = other.label id' := by
    intro id id' h
    obtain ⟨node, node', hnode, hnode', paired⟩ := each h
    rw [(node_facts hnode).1, (node_facts hnode').1, paired.label]
  have parents : ∀ {id id'}, OrRoots (Shifted base base' u.size) id id' →
      Option.Rel (OrRoots (Shifted base base' u.size)) (tree.parent? id) (other.parent? id') := by
    rintro id id' (h | ⟨rfl, rfl⟩)
    · obtain ⟨node, node', hnode, hnode', paired⟩ := each h
      rw [(node_facts hnode).2.2.2, (node_facts hnode').2.2.2]
      exact paired.parent
    · rw [parent?_zero, parent?_zero]
      exact .none
  refine ⟨?_, ?_, labels, fun h => ?_, fun h => ?_, fun h => ?_⟩
  · rintro _ _ _ ⟨i, _, rfl, rfl⟩ ⟨j, _, hsame, rfl⟩
    omega
  · rintro _ _ _ ⟨i, _, rfl, rfl⟩ ⟨j, _, rfl, hsame⟩
    omega
  · obtain ⟨node, node', hnode, hnode', paired⟩ := each h
    rw [(node_facts hnode).2.1, (node_facts hnode').2.1]
    exact paired.body
  · obtain ⟨node, node', hnode, hnode', paired⟩ := each h
    rw [(node_facts hnode).2.2.1, (node_facts hnode').2.2.1]
    exact paired.children
  · exact rel_target? root root' labels h (forall₂_ancestors parents (.inl h))

/-! ## Entry rules -/

variable {rules : List Rule}

/-- The entry rules have the names for which they are laid out. -/
theorem names_heads {base : Nat} {names : List String}
    (holds : tree.Holds base (Unfolding.nodesOfAll 0 base (names.map (Unfolding.ofEntry rules)))) :
    (Unfolding.heads base (names.map (Unfolding.ofEntry rules))).map
      (fun id => (tree.label id).name) = names := by
  induction names generalizing base with
  | nil => rfl
  | cons name names ih =>
    obtain ⟨hfirst, hrest⟩ := holds_all_cons.1 holds
    have hlabel := (node_facts (holds_step.1 hfirst).1).1
    rw [List.map_cons, Unfolding.heads, List.map_append, ih hrest, Unfolding.ofEntry, Unfolding.head,
      List.map_singleton, hlabel]
    rfl

/-- At the first node of an entry rule its unfolding is laid out. -/
theorem exists_find?_heads {base : Nat} {names : List String} {name : String}
    (holds : tree.Holds base (Unfolding.nodesOfAll 0 base (names.map (Unfolding.ofEntry rules))))
    (hname : name ∈ names) :
    ∃ id, (Unfolding.heads base (names.map (Unfolding.ofEntry rules))).find?
        (fun id => (tree.label id).name == name) = some id ∧
      tree.Holds id ((Unfolding.ofEntry rules name).nodes 0 id) := by
  induction names generalizing base with
  | nil => cases hname
  | cons first names ih =>
    obtain ⟨hfirst, hrest⟩ := holds_all_cons.1 holds
    have hlabel : (tree.label base).name = first :=
      congrArg Label.name (node_facts (holds_step.1 hfirst).1).1
    have hheads : Unfolding.heads base ((first :: names).map (Unfolding.ofEntry rules)) =
        base :: Unfolding.heads (base + (Unfolding.ofEntry rules first).size)
          (names.map (Unfolding.ofEntry rules)) := rfl
    rw [hheads, List.find?_cons, hlabel]
    by_cases hsame : first = name
    · subst hsame
      simp only [beq_self_eq_true]
      exact ⟨base, rfl, hfirst⟩
    · rw [beq_false_of_ne hsame]
      exact ih hrest ((List.mem_cons.1 hname).resolve_left fun h => hsame h.symm)

/-- The entry rules of a laid-out tree. -/
theorem entryNames_ofEntries (maxDepth : Nat) (names : List String) :
    (ofEntries maxDepth (names.map (Unfolding.ofEntry rules))).entryNames = names := by
  obtain ⟨hroot, holds⟩ := holds_ofEntries maxDepth (names.map (Unfolding.ofEntry rules))
  rw [entryNames, entryPoints, (node_facts hroot).2.2.1]
  exact names_heads holds

/-- The nodes of an entry rule in two trees that differ in the order of their entry rules correspond. -/
theorem exists_pairing (maxDepth : Nat) {names names' : List String} {name : String}
    (hname : name ∈ names) (hname' : name ∈ names') :
    ∃ id id' pair, (ofEntries maxDepth (names.map (Unfolding.ofEntry rules))).entryPoint? name = some id ∧
      (ofEntries maxDepth (names'.map (Unfolding.ofEntry rules))).entryPoint? name = some id' ∧
      (ofEntries maxDepth (names.map (Unfolding.ofEntry rules))).Pairing
        (ofEntries maxDepth (names'.map (Unfolding.ofEntry rules))) pair ∧ pair id id' := by
  obtain ⟨hroot, holds⟩ := holds_ofEntries maxDepth (names.map (Unfolding.ofEntry rules))
  obtain ⟨hroot', holds'⟩ := holds_ofEntries maxDepth (names'.map (Unfolding.ofEntry rules))
  obtain ⟨id, found, hid⟩ := exists_find?_heads holds hname
  obtain ⟨id', found', hid'⟩ := exists_find?_heads holds' hname'
  refine ⟨id, id', _, ?_, ?_, pairing_of_holds (node_facts hroot).1 (node_facts hroot').1 hid hid',
    0, ?_, rfl, rfl⟩
  · rw [entryPoint?, entryPoints, (node_facts hroot).2.2.1]
    exact found
  · rw [entryPoint?, entryPoints, (node_facts hroot').2.2.1]
    exact found'
  · rw [Unfolding.ofEntry, Unfolding.size]
    omega

end Tree

end ChainGrammar
