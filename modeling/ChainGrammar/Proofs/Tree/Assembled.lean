import ChainGrammar.Tree.Assembly
import ChainGrammar.Proofs.Rule.Uses

/-!
# What is put together

Working off the entry rules puts together the tree of the unfolded entry rules, node by node
(`Assembly.settles_entries`).  An element of a definition is settled before it is hung on its place
(`Assembly.settles_element`), so that the nodes of the definition are the nodes that were there, with the first new
one hanging on its place, and then those of the unfolding.  A reference to a rule off the path is settled with one
rule less off the path, which is what brings the whole to an end (`Assembly.settles_attach`).

The last method of a definition may already be far behind when an argument is declared at it.  What is left of a
definition is therefore settled for every last method there can be: it declares what comes before the next symbol
there (`Assembly.PutsRest`).
-/

set_option autoImplicit false

namespace ChainGrammar.Assembly

variable {rules : List Rule} {nodes : List Node} {path : List String} {place : Place} {method : Option Nat}

/-! ## Hanging -/

@[simp] theorem length_hang (ids : List Nat) : (place.hang ids nodes).length = nodes.length := by
  cases place <;> simp [Place.hang]

theorem modify_append_of_lt {α : Type} {i : Nat} {front : List α} (h : i < front.length) (behind : List α)
    (change : α → α) : (front ++ behind).modify i change = front.modify i change ++ behind := by
  induction front generalizing i with
  | nil => cases h
  | cons first front ih =>
    cases i with
    | zero => rfl
    | succ i =>
      rw [List.cons_append, List.modify_succ_cons, List.modify_succ_cons, List.cons_append,
        ih (Nat.lt_of_succ_lt_succ h)]

theorem hang_append (h : place.node < nodes.length) (ids : List Nat) (behind : List Node) :
    place.hang ids (nodes ++ behind) = place.hang ids nodes ++ behind := by
  cases place <;> exact modify_append_of_lt h behind _

theorem hang_length (node : Node) (behind : List Node) (ids : List Nat) :
    (Place.within nodes.length).hang ids (nodes ++ node :: behind) =
        nodes ++ { node with body := node.body ++ ids } :: behind ∧
      (Place.behind nodes.length).hang ids (nodes ++ node :: behind) =
        nodes ++ { node with children := node.children ++ ids } :: behind :=
  ⟨modify_length_append .., modify_length_append ..⟩

@[simp] theorem hang_nil : place.hang [] nodes = nodes := by
  have same : (fun node : Node => { node with body := node.body ++ [] }) = id ∧
      (fun node : Node => { node with children := node.children ++ [] }) = id := by
    simp [funext_iff]
  cases place <;> simp only [Place.hang, same, List.modify_id]

theorem hang_hang (first second : List Nat) :
    place.hang second (place.hang first nodes) = place.hang (first ++ second) nodes := by
  cases place <;> simp [Place.hang, List.modify_modify_eq, Function.comp_def]

/-! ## Declaring -/

@[simp] theorem length_declared (params : List Param) : (declared method params nodes).length = nodes.length := by
  cases method <;> simp [declared]

@[simp] theorem declared_nil : declared method [] nodes = nodes := by
  have same : (fun node : Node => { node with label := node.label.declare [] }) = id := by
    simp [funext_iff]
  cases method <;> simp only [declared, same, List.modify_id]

theorem declared_declared (first second : List Param) :
    declared method second (declared method first nodes) = declared method (first ++ second) nodes := by
  cases method <;> simp [declared, List.modify_modify_eq, Function.comp_def]

theorem declared_append (known : ∀ id ∈ method, id < nodes.length) (params : List Param) (behind : List Node) :
    declared method params (nodes ++ behind) = declared method params nodes ++ behind := by
  cases method with
  | none => rfl
  | some id => exact modify_append_of_lt (known id rfl) behind _

/-- Declaring changes nothing that hanging sees, and the other way round. -/
theorem declared_hang (params : List Param) (ids : List Nat) :
    declared method params (place.hang ids nodes) = place.hang ids (declared method params nodes) := by
  cases method with
  | none => rfl
  | some id =>
    by_cases same : place.node = id
    · subst same
      cases place <;> simp [Place.hang, Place.node, declared, List.modify_modify_eq, Function.comp_def]
    · cases place <;> exact List.modify_modify_ne _ _ _ same

/-! ## Settling tasks -/

/-- Some tasks are worked off, whatever stands behind them. -/
def Settles (rules : List Rule) (now : Assembly) (tasks : List Task) (after : Assembly) : Prop :=
  ∃ steps, ∀ rest, runFor rules steps now (tasks ++ rest) = .ok (after, rest)

theorem runFor_add {now after : Assembly} {agenda left : List Task} {steps : Nat} (more : Nat)
    (h : runFor rules steps now agenda = .ok (after, left)) :
    runFor rules (steps + more) now agenda = runFor rules more after left := by
  fun_induction runFor rules steps now agenda with
  | case1 =>
    obtain ⟨rfl, rfl⟩ := Prod.mk.inj (Except.ok.inj h)
    rw [Nat.zero_add]
  | case2 =>
    obtain ⟨rfl, rfl⟩ := Prod.mk.inj (Except.ok.inj h)
    cases more <;> rw [Nat.add_comm] <;> rfl
  | case3 => cases h
  | case4 limit now task agenda next led performed ih =>
    rw [Nat.succ_add, runFor, performed]
    exact ih h

theorem settles_nil (now : Assembly) : Settles rules now [] now := ⟨0, fun _ => rfl⟩

theorem Settles.append {now between after : Assembly} {first second : List Task}
    (h₁ : Settles rules now first between) (h₂ : Settles rules between second after) :
    Settles rules now (first ++ second) after := by
  obtain ⟨few, hfew⟩ := h₁
  obtain ⟨more, hmore⟩ := h₂
  refine ⟨few + more, fun rest => ?_⟩
  rw [List.append_assoc, runFor_add more (hfew (second ++ rest))]
  exact hmore rest

/-- A task is worked off with the tasks that it leads to. -/
theorem settles_of_perform {now next after : Assembly} {task : Task} {led : List Task}
    (performed : now.perform rules task = .ok (next, led)) (h : Settles rules next led after) :
    Settles rules now [task] after := by
  obtain ⟨steps, hsteps⟩ := h
  refine ⟨steps + 1, fun rest => ?_⟩
  rw [List.singleton_append, runFor, performed]
  exact hsteps rest

/-- A reference to a rule on the path adds a back-edge, a reference to any other rule attaches the rule. -/
theorem perform_refer {now : Assembly} {owner : String} {rule : Rule} {optional : Bool} {repeats : Repeat}
    (found : Rules.find? rules rule.name = some rule) :
    now.perform rules (.refer owner rule.name optional repeats) =
      if rule.name ∈ now.path then .ok (now.add (.backEdge rule.name owner optional repeats), [])
      else .ok (now, [.attach rule optional repeats]) := by
  simp only [perform, found]

/-- Attaching a rule off the path puts it in front of the path. -/
theorem perform_attach {now : Assembly} {rule : Rule} (off : rule.name ∉ now.path) (optional : Bool)
    (repeats : Repeat) :
    now.perform rules (.attach rule optional repeats) =
      .ok ({ now.add (.rule rule.name optional repeats) with path := rule.name :: now.path },
        rule.definitions.map (Task.define rule.name (.within now.nodes.length) none) ++ [.leave rule.name]) := by
  simp only [perform, add, List.insert_of_not_mem off]

/-! ## Definitions -/

/-- The node of an element that does not hang anywhere yet, with the nodes below it. -/
def loose (base : Nat) (label : Label) (body : List Unfolding) : List Node :=
  ⟨label, Unfolding.heads (base + 1) body, [], none⟩ :: Unfolding.nodesOfAll base (base + 1) body

/-- The tasks put an unfolded definition on the place. -/
def Puts (rules : List Rule) (path : List String) (place : Place) (tasks : List Task) (u : Unfolding) : Prop :=
  ∀ nodes : List Node, place.node < nodes.length →
    Settles rules ⟨nodes, path⟩ tasks
      ⟨place.hang (u.head nodes.length) nodes ++ u.nodes place.node nodes.length, path⟩

theorem nodes_last (parent base : Nat) (label : Label) (body : List Unfolding) :
    (Unfolding.step label body .done).nodes parent base =
      ⟨label, Unfolding.heads (base + 1) body, [], some parent⟩ ::
        Unfolding.nodesOfAll base (base + 1) body := by
  simp [Unfolding.nodes, Unfolding.head]

/-- A loose element is hung on its place. -/
theorem link_loose (h : place.node < nodes.length) (label : Label) (body : List Unfolding) :
    Assembly.link ⟨nodes ++ loose nodes.length label body, path⟩ place nodes.length =
      ⟨place.hang [nodes.length] nodes ++
        (Unfolding.step label body .done).nodes place.node nodes.length, path⟩ := by
  have hlink := modify_length_append (place.hang [nodes.length] nodes)
    ⟨label, Unfolding.heads (nodes.length + 1) body, [], none⟩
    (Unfolding.nodesOfAll nodes.length (nodes.length + 1) body)
    fun node => { node with parent := some place.node }
  rw [length_hang] at hlink
  simp only [link, hang_append h, loose, hlink, nodes_last]

/-- The rest of a definition is put on the place, and its arguments up to the next symbol are declared at the last
method. -/
def PutsRest (rules : List Rule) (path : List String) (owner : String) (place : Place) (method : Option Nat)
    (rest : Definition) (u : Unfolding) : Prop :=
  ∀ nodes : List Node, place.node < nodes.length → (∀ id ∈ method, id < nodes.length) →
    Settles rules ⟨nodes, path⟩ [.define owner place method rest]
      ⟨place.hang (u.head nodes.length) (declared method (Unfolding.paramsToSymbol rest) nodes) ++
        u.nodes place.node nodes.length, path⟩

/-- A whole definition has no last method yet. -/
theorem PutsRest.puts {owner : String} {definition : Definition} {u : Unfolding}
    (h : PutsRest rules path owner place none definition u) :
    Puts rules path place [.define owner place none definition] u :=
  fun nodes hplace => h nodes hplace nofun

/-- An argument in front of the rest of a definition is declared at the last method before the others. -/
theorem PutsRest.argument {owner : String} {rest : Definition} {u : Unfolding}
    (further : PutsRest rules path owner place method rest u) (param : Param) (h : place.node < nodes.length)
    (known : ∀ id ∈ method, id < nodes.length) :
    Settles rules (declare ⟨nodes, path⟩ method param) [.define owner place method rest]
      ⟨place.hang (u.head nodes.length) (declared method (param :: Unfolding.paramsToSymbol rest) nodes) ++
        u.nodes place.node nodes.length, path⟩ := by
  have settled := further (declared method [param] nodes) (by rwa [length_declared]) (by rwa [length_declared])
  rwa [length_declared, declared_declared] at settled

/-- Behind the last element of a definition the rest of the definition is put. -/
theorem settles_behind {owner : String} {rest : Definition} {next : Unfolding} {base parent : Nat}
    (further : PutsRest rules path owner (.behind base) method rest next) {after : List Node}
    {label declaring : Label} {body : List Unfolding} (numbered : nodes.length = base) (kept : after.length = base)
    (known : ∀ id ∈ method, id ≤ base)
    (declares : declared method (Unfolding.paramsToSymbol rest)
        (nodes ++ (Unfolding.step label body .done).nodes parent base) =
      after ++ (Unfolding.step declaring body .done).nodes parent base) :
    Settles rules ⟨nodes ++ (Unfolding.step label body .done).nodes parent base, path⟩
      [.define owner (.behind base) method rest]
      ⟨after ++ (Unfolding.step declaring body next).nodes parent base, path⟩ := by
  subst kept
  have hlength : (nodes ++ (Unfolding.step label body .done).nodes parent after.length).length =
      after.length + 1 + Unfolding.sizes body := by
    simp only [List.length_append, Unfolding.length_nodes, Unfolding.size]
    omega
  have settled := further _ (by rw [hlength, Place.node]; omega)
    (fun id hid => by have := known id hid; omega)
  rw [declares, hlength, nodes_last parent after.length declaring, (hang_length ..).2] at settled
  simpa [Unfolding.nodes, Place.node] using settled

/-- A loose element is hung on its place, and then the rest of the definition is put behind it. -/
theorem settles_element {owner : String} {rest : Definition} {next : Unfolding} (h : place.node < nodes.length)
    (further : ∀ place, PutsRest rules path owner place method rest next) {after : List Node}
    {label declaring : Label} {body : List Unfolding} (kept : after.length = nodes.length)
    (known : ∀ id ∈ method, id ≤ nodes.length)
    (declares : declared method (Unfolding.paramsToSymbol rest)
        (place.hang [nodes.length] nodes ++
          (Unfolding.step label body .done).nodes place.node nodes.length) =
      after ++ (Unfolding.step declaring body .done).nodes place.node nodes.length) :
    Settles rules ⟨nodes ++ loose nodes.length label body, path⟩
      [.link place nodes.length, .define owner (.behind nodes.length) method rest]
      ⟨after ++ (Unfolding.step declaring body next).nodes place.node nodes.length, path⟩ := by
  have linked : Settles rules ⟨nodes ++ loose nodes.length label body, path⟩ [.link place nodes.length]
      ⟨place.hang [nodes.length] nodes ++
        (Unfolding.step label body .done).nodes place.node nodes.length, path⟩ := by
    apply settles_of_perform rfl
    rw [link_loose h]
    exact settles_nil _
  exact linked.append (settles_behind (further (.behind nodes.length)) (length_hang _) kept known declares)

/-- A method is hung on its place, and from there on it is the last one. -/
theorem settles_method {owner : String} {rest : Definition} {next : Unfolding} (h : place.node < nodes.length)
    (further : ∀ place, PutsRest rules path owner place (some nodes.length) rest next) (label : Label) :
    Settles rules ⟨nodes ++ loose nodes.length label [], path⟩
      [.link place nodes.length, .define owner (.behind nodes.length) (some nodes.length) rest]
      ⟨place.hang [nodes.length] nodes ++
        (Unfolding.step (label.declare (Unfolding.paramsToSymbol rest)) [] next).nodes place.node
          nodes.length, path⟩ := by
  apply settles_element h further
  · exact length_hang _
  · simp
  · have changed := modify_length_append (place.hang [nodes.length] nodes)
      ⟨label, Unfolding.heads (nodes.length + 1) [], [], some place.node⟩
      (Unfolding.nodesOfAll nodes.length (nodes.length + 1) [])
      fun node => { node with label := node.label.declare (Unfolding.paramsToSymbol rest) }
    rw [length_hang] at changed
    simp only [declared, nodes_last, changed]

/-- What a reference stands for is hung on its place, and the last method is the one before it. -/
theorem settles_reference {owner : String} {rest : Definition} {next : Unfolding}
    (h : place.node < nodes.length) (known : ∀ id ∈ method, id < nodes.length)
    (further : ∀ place, PutsRest rules path owner place method rest next) (label : Label) (body : List Unfolding) :
    Settles rules ⟨nodes ++ loose nodes.length label body, path⟩
      [.link place nodes.length, .define owner (.behind nodes.length) method rest]
      ⟨place.hang [nodes.length] (declared method (Unfolding.paramsToSymbol rest) nodes) ++
        (Unfolding.step label body next).nodes place.node nodes.length, path⟩ := by
  apply settles_element h further
  · rw [length_hang, length_declared]
  · exact fun id hid => Nat.le_of_lt (known id hid)
  · rw [declared_append (by rwa [length_hang]), declared_hang]

/-- Every rule off the path can be attached, with the given nodes below it, and leaves the path as it was. -/
def Attaches (rules : List Rule) (path : List String)
    (body : (target : String) → target ∉ path → List Unfolding) : Prop :=
  ∀ (rule : Rule) (off : rule.name ∉ path), rule ∈ rules → ∀ (optional : Bool) (repeats : Repeat)
    (nodes : List Node), Settles rules ⟨nodes, path⟩ [.attach rule optional repeats]
      ⟨nodes ++ loose nodes.length (.rule rule.name optional repeats) (body rule.name off), path⟩

/-- A definition is put on a place, segment by segment. -/
theorem putsRest_definition {owner : String} {body : (target : String) → target ∉ path → List Unfolding}
    (attaches : Attaches rules path body) (definition : Definition)
    (resolved : ∀ segment ∈ definition, ∀ target, segment.target? = some target →
      target ∈ Rules.names rules) (place : Place) (method : Option Nat) :
    PutsRest rules path owner place method definition
      (Unfolding.ofDefinition owner path body definition) := by
  induction definition generalizing place method with
  | nil =>
    intro nodes _ _
    apply settles_of_perform rfl
    simpa [Unfolding.ofDefinition, Unfolding.head, Unfolding.nodes, Unfolding.paramsToSymbol, define]
      using settles_nil _
  | cons segment rest ih =>
    have further := ih fun other hother => resolved other (List.mem_cons_of_mem _ hother)
    intro nodes h known
    cases segment with
    | symbol name params optional =>
      apply settles_of_perform rfl
      rw [Unfolding.paramsToSymbol, declared_nil]
      exact settles_method h (fun place => further place _) _
    | reference target optional repeats =>
      obtain ⟨rule, found⟩ := Rules.mem_names_iff.1 (resolved _ List.mem_cons_self target rfl)
      obtain rfl := Rules.find?_name found
      apply settles_of_perform rfl
      rw [Unfolding.ofDefinition]
      split
      · rename_i on
        -- a back-edge is added at once
        have added : Settles rules ⟨nodes, path⟩ [.refer owner rule.name optional repeats]
            ⟨nodes ++ loose nodes.length (.backEdge rule.name owner optional repeats) [], path⟩ := by
          apply settles_of_perform ((perform_refer found).trans (if_pos on))
          exact settles_nil _
        exact added.append (settles_reference h known (fun place => further place method) _ [])
      · rename_i off
        have added : Settles rules ⟨nodes, path⟩ [.refer owner rule.name optional repeats]
            ⟨nodes ++ loose nodes.length (.rule rule.name optional repeats) (body rule.name off), path⟩ := by
          apply settles_of_perform ((perform_refer found).trans (if_neg off))
          exact attaches rule off (Rules.find?_mem found) optional repeats nodes
        exact added.append (settles_reference h known (fun place => further place method) _ _)
    | parameter name => exact settles_of_perform rfl ((further place method).argument (.named name) h known)
    | value => exact settles_of_perform rfl ((further place method).argument .value h known)
    | alternation => exact settles_of_perform rfl (further place method nodes h known)

/-! ## Rules -/

/-- Several unfolded definitions are put on one place, one after the other. -/
theorem settles_all {α : Type} {task : α → Task} {u : α → Unfolding} (parts : List α)
    (puts : ∀ part ∈ parts, Puts rules path place [task part] (u part)) (nodes : List Node)
    (h : place.node < nodes.length) :
    Settles rules ⟨nodes, path⟩ (parts.map task)
      ⟨place.hang (Unfolding.heads nodes.length (parts.map u)) nodes ++
        Unfolding.nodesOfAll place.node nodes.length (parts.map u), path⟩ := by
  induction parts generalizing nodes with
  | nil => simpa [Unfolding.heads, Unfolding.nodesOfAll] using settles_nil _
  | cons part parts ih =>
    have first := puts part List.mem_cons_self nodes h
    have others := ih (fun other hother => puts other (List.mem_cons_of_mem _ hother))
      (place.hang ((u part).head nodes.length) nodes ++ (u part).nodes place.node nodes.length)
      (by rw [List.length_append, length_hang]; omega)
    have settled := first.append others
    rw [List.length_append, length_hang, Unfolding.length_nodes,
      hang_append (by rwa [length_hang]), hang_hang, List.append_assoc] at settled
    exact settled

/-- A rule off the path is attached: its node is added, and the nodes of its definitions below it. -/
theorem settles_attach (distinct : (Rules.names rules).Nodup) (resolved : Rules.Resolved rules)
    (path : List String) : Attaches rules path (Unfolding.bodyOf rules path) := by
  intro rule off hrule optional repeats nodes
  have found := (Rules.find?_eq_some_iff distinct).2 ⟨hrule, rfl⟩
  have fewer := Rules.unvisited_cons_lt found off
  have defined : ∀ definition ∈ rule.definitions, Puts rules (rule.name :: path) (.within nodes.length)
      [.define rule.name (.within nodes.length) none definition]
      (Unfolding.ofDefinition rule.name (rule.name :: path)
        (fun target h => Unfolding.bodyOf rules (rule.name :: path) target h) definition) := by
    intro definition hdefinition
    refine (putsRest_definition (settles_attach distinct resolved (rule.name :: path)) definition ?_ _ _).puts
    intro segment hsegment target htarget
    exact resolved rule.name target ⟨rule, hrule, rfl, definition, hdefinition, segment, hsegment, htarget⟩
  have below := settles_all rule.definitions defined
    (nodes ++ [⟨.rule rule.name optional repeats, [], [], none⟩]) (by simp [Place.node])
  rw [(hang_length ..).1, List.length_append, List.length_singleton,
    ← Tree.bodyOf_of_find? found off] at below
  have left : Settles rules
      ⟨nodes ++ loose nodes.length (.rule rule.name optional repeats)
        (Unfolding.bodyOf rules path rule.name off), rule.name :: path⟩ [.leave rule.name]
      ⟨nodes ++ loose nodes.length (.rule rule.name optional repeats)
        (Unfolding.bodyOf rules path rule.name off), path⟩ := by
    apply settles_of_perform rfl
    rw [List.erase_cons_head]
    exact settles_nil _
  apply settles_of_perform (perform_attach off optional repeats)
  refine Settles.append ?_ left
  simpa [loose, Place.node, add] using below
termination_by Rules.unvisited rules path
decreasing_by exact fewer

/-- An entry rule is put behind the root. -/
theorem puts_entry (distinct : (Rules.names rules).Nodup) (resolved : Rules.Resolved rules) {rule : Rule}
    (hrule : rule ∈ rules) : Puts rules [] (.behind 0) [.entry rule] (Unfolding.ofEntry rules rule.name) := by
  intro nodes h
  apply settles_of_perform rfl
  refine (settles_attach distinct resolved [] rule List.not_mem_nil hrule false .once nodes).append ?_
  apply settles_of_perform rfl
  rw [link_loose h]
  exact settles_nil _

/-- The entry rules are put together to the tree of their unfoldings. -/
theorem settles_entries (distinct : (Rules.names rules).Nodup) (resolved : Rules.Resolved rules)
    {entries : List Rule} (known : ∀ rule ∈ entries, rule ∈ rules) (maxDepth : Nat) :
    Settles rules bare (entries.map .entry)
      ⟨(Tree.ofEntries maxDepth ((Rules.names entries).map (Unfolding.ofEntry rules))).nodes.toList, []⟩ := by
  rw [Rules.names, List.map_map]
  exact settles_all entries (fun rule hrule => puts_entry distinct resolved (known rule hrule)) _ Nat.zero_lt_one

end ChainGrammar.Assembly
