import ChainGrammar.Derivation
import ChainGrammar.Proofs.Position.Machine
import ChainGrammar.Proofs.Tree.Unfolded

/-!
# Settings and nodes

Where the rules derive from a setting, the tree has a place below the nodes of the rules that are being
unfolded.  A reference stands at a node (`Tree.Refers`), and a rule may occur within the setting of that
place exactly as the node says: it is entered where the node leads, the path becomes that of the rule
there, and the depth grows by one at a back-edge (`Tree.Refers.into`, `Tree.Refers.of_into`).
-/

set_option autoImplicit false

namespace ChainGrammar

namespace Repeat

/-- From the occurrence of the given number on there may be so many, itself included. -/
def Leaves : Repeat → Nat → Nat → Prop
  | .once, _, count => count ≤ 1
  | .times limit, iteration, count => iteration + count ≤ limit.toNat + 1
  | .unbounded, _, _ => True

/-- A reference admits as many occurrences as may be there from the first one on. -/
theorem admits_succ_iff (repeats : Repeat) (count : Nat) :
    repeats.Admits (count + 1) ↔ repeats.Leaves 1 (count + 1) := by
  cases repeats <;> simp only [Admits, Leaves, iff_true] <;> omega

/-- No occurrence at all is admitted by leaving the reference out only. -/
theorem not_admits_zero (repeats : Repeat) : ¬repeats.Admits 0 := by
  cases repeats <;> simp [Admits]

/-- There may be another occurrence and more behind it if it is allowed and leaves room for these. -/
theorem leaves_succ_iff (repeats : Repeat) (frame : Frame) (count : Nat) :
    repeats.Leaves frame.iteration (count + 2) ↔ repeats.allowsAnother frame.iteration = true ∧
      repeats.Leaves (frame.following repeats).iteration (count + 1) := by
  cases repeats with
  | once => simp [Leaves, allowsAnother]
  | times limit =>
    simp only [Leaves, allowsAnother, Frame.following, decide_eq_true_eq]
    omega
  | unbounded => simp [Leaves, allowsAnother]

/-- Another occurrence that is allowed may be there. -/
theorem leaves_following {repeats : Repeat} {frame : Frame}
    (allows : repeats.allowsAnother frame.iteration = true) :
    repeats.Leaves (frame.following repeats).iteration 1 := by
  cases repeats with
  | once => cases allows
  | times limit =>
    simp only [Leaves, allowsAnother, Frame.following, decide_eq_true_eq] at allows ⊢
    omega
  | unbounded => trivial

/-- A proper repetition leaves room for a first occurrence. -/
theorem Proper.leaves {repeats : Repeat} (proper : repeats.Proper) : repeats.Leaves 1 1 := by
  cases repeats <;> simp only [Proper, Leaves] at proper ⊢ <;> omega

end Repeat

namespace Tree

/-- The rules that are being unfolded are shown, each within those before it, and they differ. -/
inductive Inside (tree : Tree) (rules : List Rule) : Enclosing → Prop where
  | nil : Inside tree rules []
  | cons {enclosing : Enclosing} {name : String} {id : Nat} (off : name ∉ enclosing.path)
      (shown : tree.ShowsRule rules enclosing name id) (inside : Inside tree rules enclosing) :
      Inside tree rules ((name, id) :: enclosing)

/-- A node stands for a reference: the rule is entered at `body`, within the rules `outer`. -/
structure Refers (tree : Tree) (rules : List Rule) (enclosing : Enclosing) (id : Nat) (name : String)
    (optional : Bool) (repeats : Repeat) (body : Nat) (outer : Enclosing) : Prop where
  opens : tree.opens? id = some body
  optional : (tree.label id).optional = optional
  repeats : (tree.label id).repeats = repeats
  inside : tree.Inside rules ((name, body) :: outer)
  /-- A rule that is not being unfolded is entered within those that are; a back-edge leads back to
  the newest use of its rule. -/
  context : (tree.label id).isBackEdge = false ∧ outer = enclosing ∨
    (tree.label id).isBackEdge = true ∧ ∃ newer : Enclosing,
      enclosing = newer ++ (name, body) :: outer ∧ name ∉ newer.path

variable {tree : Tree} {rules : List Rule} {enclosing outer : Enclosing} {name owner : String}
  {id body : Nat} {optional : Bool} {repeats : Repeat} {definition : Definition}

/-- A rule that is being unfolded is shown within the older ones. -/
theorem Inside.of_mem (inside : tree.Inside rules enclosing) (h : (name, id) ∈ enclosing) :
    ∃ newer outer : Enclosing, enclosing = newer ++ (name, id) :: outer ∧ name ∉ newer.path ∧
      tree.Inside rules ((name, id) :: outer) := by
  induction inside with
  | nil => cases h
  | @cons enclosing first rule off shown inside ih =>
    rcases List.mem_cons.1 h with heq | h
    · obtain ⟨rfl, rfl⟩ := Prod.mk.inj heq
      exact ⟨[], enclosing, rfl, List.not_mem_nil, .cons off shown inside⟩
    · obtain ⟨newer, outer, rfl, hnewer, hinside⟩ := ih h
      refine ⟨(first, rule) :: newer, outer, rfl, ?_, hinside⟩
      rintro hmem
      rcases List.mem_cons.1 hmem with rfl | hmem
      · exact off (List.mem_map.2 ⟨_, List.mem_append_right _ List.mem_cons_self, rfl⟩)
      · exact hnewer hmem

/-- The node of a reference to a rule that is not being unfolded. -/
theorem refers_unfolded (inside : tree.Inside rules enclosing) (off : name ∉ enclosing.path)
    (label : tree.label id = .rule name optional repeats)
    (shown : tree.ShowsRule rules enclosing name id) :
    tree.Refers rules enclosing id name optional repeats id enclosing where
  opens := opens?_eq_some_iff.2 (.inl ⟨⟨_, _, _, label⟩, rfl⟩)
  optional := congrArg Label.optional label
  repeats := congrArg Label.repeats label
  inside := .cons off shown inside
  context := .inl ⟨congrArg Label.isBackEdge label, rfl⟩

/-- The node of a reference to a rule that is being unfolded. -/
theorem exists_refers_returning (inside : tree.Inside rules enclosing) (on : (name, body) ∈ enclosing)
    (label : tree.label id = .backEdge name owner optional repeats)
    (leads : tree.target? id = some body) :
    ∃ outer, tree.Refers rules enclosing id name optional repeats body outer := by
  obtain ⟨newer, outer, hsplit, hnewer, hinside⟩ := inside.of_mem on
  exact ⟨outer, opens?_eq_some_iff.2 (.inr leads), congrArg Label.optional label,
    congrArg Label.repeats label, hinside,
    .inr ⟨congrArg Label.isBackEdge label, newer, hsplit, hnewer⟩⟩

/-- The node of a reference. -/
theorem ShowsDefinition.refers {ids : List Nat} {rest : Definition}
    (inside : tree.Inside rules enclosing)
    (h : tree.ShowsDefinition rules enclosing owner (.reference name optional repeats :: rest) ids) :
    ∃ id body outer, ids = [id] ∧ tree.Refers rules enclosing id name optional repeats body outer ∧
      tree.ShowsDefinition rules enclosing owner rest (tree.children id) := by
  cases h with
  | @unfolded _ _ _ _ _ _ id off label shown further =>
    exact ⟨id, id, enclosing, rfl, refers_unfolded inside off label shown, further⟩
  | @returning _ _ _ _ _ _ id body on label _ leads further =>
    obtain ⟨outer, refers⟩ := exists_refers_returning inside on label leads
    exact ⟨id, body, outer, rfl, refers, further⟩
  | declared argument => cases argument

/-- The first node of the rest of a definition stands for its first symbol or reference. -/
theorem ShowsDefinition.node (inside : tree.Inside rules enclosing)
    (h : tree.ShowsDefinition rules enclosing owner definition [id]) :
    ∃ arguments segment rest, definition = arguments ++ segment :: rest ∧
      (∀ argument ∈ arguments, argument.isAnchor = false) ∧
      tree.ShowsDefinition rules enclosing owner rest (tree.children id) ∧
      ((∃ name params optional, segment = .symbol name params optional ∧ tree.label id =
          .method name owner (params.map .named ++ Unfolding.declaredParams rest) optional) ∨
        ∃ name optional repeats body outer, segment = .reference name optional repeats ∧
          tree.Refers rules enclosing id name optional repeats body outer) := by
  induction definition with
  | nil => cases h
  | cons segment rest ih =>
    cases segment with
    | symbol name params optional =>
      cases h with
      | symbol label _ further =>
        exact ⟨[], _, rest, rfl, by simp, further, .inl ⟨name, params, optional, rfl, label⟩⟩
      | declared argument => cases argument
    | reference name optional repeats =>
      obtain ⟨other, body, outer, hids, refers, further⟩ := h.refers inside
      obtain rfl := List.singleton_inj.1 hids
      exact ⟨[], _, rest, rfl, by simp, further,
        .inr ⟨name, optional, repeats, body, outer, rfl, refers⟩⟩
    | parameter | value | alternation =>
      cases h with
      | declared argument further =>
        obtain ⟨arguments, first, behind, rfl, harguments, hfurther, hnode⟩ := ih further
        refine ⟨_ :: arguments, first, behind, rfl, fun other hother => ?_, hfurther, hnode⟩
        rcases List.mem_cons.1 hother with rfl | hother
        · exact argument
        · exact harguments other hother

/-- Every definition of a rule begins at some node. -/
theorem ShowsDefinitions.exists_node {definitions : List Definition} {ids : List Nat}
    (h : tree.ShowsDefinitions rules enclosing owner definitions ids)
    (member : definition ∈ definitions) :
    ∃ id ∈ ids, tree.ShowsDefinition rules enclosing owner definition [id] := by
  induction definitions generalizing ids with
  | nil => cases member
  | cons other definitions ih =>
    cases h with
    | cons first others =>
      rcases List.mem_cons.1 member with rfl | member
      · exact ⟨_, List.mem_cons_self, first⟩
      · obtain ⟨id, hid, hshows⟩ := ih others member
        exact ⟨id, List.mem_cons_of_mem _ hid, hshows⟩

/-- Every node below that of a rule begins one of its definitions. -/
theorem ShowsDefinitions.exists_definition {definitions : List Definition} {ids : List Nat}
    (h : tree.ShowsDefinitions rules enclosing owner definitions ids) (member : id ∈ ids) :
    ∃ definition ∈ definitions, tree.ShowsDefinition rules enclosing owner definition [id] := by
  induction definitions generalizing ids with
  | nil =>
    cases h
    cases member
  | cons other definitions ih =>
    cases h with
    | cons first others =>
      rcases List.mem_cons.1 member with rfl | member
      · exact ⟨other, List.mem_cons_self, first⟩
      · obtain ⟨definition, hdefinition, hshows⟩ := ih others member
        exact ⟨definition, List.mem_cons_of_mem _ hdefinition, hshows⟩

/-- Below the node of a rule that is being unfolded stand its definitions. -/
theorem Inside.definitions (inside : tree.Inside rules ((name, body) :: outer)) :
    ∃ rule, Rules.find? rules name = some rule ∧
      tree.ShowsDefinitions rules ((name, body) :: outer) name rule.definitions (tree.body body) := by
  cases inside with
  | cons _ shown =>
    cases shown with
    | intro found definitions => exact ⟨_, found, definitions⟩

/-- The rest of a definition has one node, or none. -/
theorem ShowsDefinition.ids_cases {ids : List Nat}
    (h : tree.ShowsDefinition rules enclosing owner definition ids) :
    (∃ id, ids = [id]) ∨
      ids = [] ∧ ∀ argument ∈ definition, argument.isAnchor = false := by
  induction definition with
  | nil =>
    cases h
    exact .inr ⟨rfl, by simp⟩
  | cons segment rest ih =>
    cases h with
    | symbol | unfolded | returning => exact .inl ⟨_, rfl⟩
    | declared argument further =>
      refine (ih further).imp_right fun ⟨hids, hrest⟩ => ⟨hids, fun other hother => ?_⟩
      rcases List.mem_cons.1 hother with rfl | hother
      · exact argument
      · exact hrest other hother

/-- What the node of a reference adds to the depth. -/
def depthAt (tree : Tree) (id : Nat) : Nat := if (tree.label id).isBackEdge then 1 else 0

/-- A frame adds to the depth of a stack what its origin does. -/
theorem depthOf_cons (tree : Tree) (frame : Frame) (stack : List Frame) :
    Frame.depthOf tree (frame :: stack) = Frame.depthOf tree stack + tree.depthAt frame.origin :=
  Frame.depthOf_cons tree frame stack

/-- The rule occurs within the setting of the node as the node says. -/
theorem Refers.into (refers : tree.Refers rules enclosing id name optional repeats body outer)
    {limit depth : Nat} (within : depth + tree.depthAt id ≤ limit) :
    Setting.Into limit ⟨enclosing.path, depth⟩ name ⟨name :: outer.path, depth + tree.depthAt id⟩ := by
  obtain ⟨hrule, rfl⟩ | ⟨hback, newer, rfl, hnewer⟩ := refers.context
  · cases refers.inside with
    | cons off =>
      rw [depthAt, hrule]
      exact .extend off
  · rw [depthAt, hback] at within ⊢
    rw [Enclosing.path, List.map_append, List.map_cons]
    exact .cut hnewer within

/-- The rule occurs within the setting of the node only as the node says. -/
theorem Refers.of_into (refers : tree.Refers rules enclosing id name optional repeats body outer)
    {limit depth : Nat} {inner : Setting}
    (h : Setting.Into limit ⟨enclosing.path, depth⟩ name inner) :
    inner = ⟨name :: outer.path, depth + tree.depthAt id⟩ ∧
      (depth ≤ limit → depth + tree.depthAt id ≤ limit) := by
  generalize hpath : enclosing.path = path at h
  obtain ⟨hrule, rfl⟩ | ⟨hback, newer, rfl, hnewer⟩ := refers.context
  · cases refers.inside with
    | cons off =>
      cases h with
      | extend =>
        rw [depthAt, hrule, hpath]
        exact ⟨rfl, fun h => h⟩
      | cut => exact absurd (hpath ▸ List.mem_append_right _ List.mem_cons_self) off
  · rw [Enclosing.path, List.map_append, List.map_cons] at hpath
    cases h with
    | extend off => exact absurd (hpath ▸ List.mem_append_right _ List.mem_cons_self) off
    | @cut newer' older' _ _ first within =>
      cases refers.inside with
      | cons off =>
        obtain ⟨_, _, hrest⟩ := (List.append_cons_inj_of_notMem hnewer off).1 hpath
        rw [depthAt, hback, ← hrest]
        exact ⟨rfl, fun _ => within⟩

end Tree

end ChainGrammar
