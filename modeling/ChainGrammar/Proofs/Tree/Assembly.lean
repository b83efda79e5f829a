import ChainGrammar.Proofs.Rule.Cycle
import ChainGrammar.Proofs.Tree.Assembled
import ChainGrammar.Proofs.Tree.Containment

/-!
# The path of the rules that are being attached

However the references of the rules lead back to each other, putting a tree together comes to an end, and the path
is kept in order (`Assembly.orderly_ofEntries`).  The agenda unwinds the path: its tasks that take a rule off are
there for the rules on the path, newest first, and entry rules are left only below them (`Assembly.Unwinds`).  Each
step preserves this together with the knowledge that every name on the agenda is that of a rule, which is why no
step fails (`Assembly.Sound.step`).

A rule is attached only where it is off the path, so no rule is below a node of itself.  The nodes of rules that
contain each other therefore have different names, and there are no more of them than there are rules
(`Tree.Scoped.nodup_ruleNames`).
-/

set_option autoImplicit false

namespace ChainGrammar

/-- The rule that a label unfolds. -/
def Label.ruleName? : Label → Option String
  | .rule name .. => some name
  | _ => none

theorem Label.ruleName?_eq_some_iff {label : Label} {name : String} :
    label.ruleName? = some name ↔ label.isRule name = true := by
  cases label <;> simp [ruleName?, isRule]

namespace Tree

variable {tree : Tree}

/-- The names of the rules that are unfolded at the nodes. -/
def ruleNames (tree : Tree) (ids : List Nat) : List String :=
  ids.filterMap fun id => (tree.label id).ruleName?

theorem Reaches.trans {start between last : Nat} (h₁ : tree.Reaches start between)
    (h₂ : tree.Reaches between last) : tree.Reaches start last := by
  induction h₂ with
  | refl => exact h₁
  | down _ member ih => exact .down ih member
  | further _ member ih => exact .further ih member

theorem Contains.trans {outer between inner : Nat} (h₁ : tree.Contains outer between)
    (h₂ : tree.Contains between inner) : tree.Contains outer inner := by
  obtain ⟨first, hfirst, reached⟩ := h₁
  obtain ⟨next, hnext, further⟩ := h₂
  exact ⟨first, hfirst, (Reaches.down reached hnext).trans further⟩

/-- Among nodes each of which contains the next one, no rule is unfolded twice. -/
theorem Scoped.nodup_ruleNames (layout : tree.Scoped) {ids : List Nat} (nested : ids.IsChain tree.Contains) :
    (tree.ruleNames ids).Nodup := by
  have : Trans tree.Contains tree.Contains tree.Contains := ⟨Contains.trans⟩
  apply List.pairwise_filterMap.2
  apply nested.pairwise.imp
  intro outer inner within name houter other hinner
  rw [Label.ruleName?_eq_some_iff] at houter hinner
  rintro rfl
  exact layout.not_contains houter hinner within

end Tree

namespace Assembly

variable {rules entries : List Rule} {now : Assembly} {task : Task} {agenda : List Task} {path : List String}

/-! ## What is known of the agenda -/

/-- The names in a task are those of rules. -/
def Task.Known (rules : List Rule) : Task → Prop
  | .entry rule => rule ∈ rules
  | .attach rule .. => rule ∈ rules
  | .refer _ target .. => target ∈ Rules.names rules
  | .define _ _ _ rest =>
    ∀ segment ∈ rest, ∀ target, segment.target? = some target → target ∈ Rules.names rules
  | .link .. => True
  | .leave _ => True

/-- A task that leaves the path as it is. -/
def Task.isPlain : Task → Bool
  | .refer .. => true
  | .define .. => true
  | .link .. => true
  | _ => false

/-- The agenda takes the rules on the path off again, newest first.  A rule that is about to be attached is off the
path, and an entry rule comes when nothing is left on it. -/
inductive Unwinds : List Task → List String → Prop where
  | nil : Unwinds [] []
  | entry {rule : Rule} {agenda : List Task} (further : Unwinds agenda []) : Unwinds (.entry rule :: agenda) []
  | attach {rule : Rule} {optional : Bool} {repeats : Repeat} {agenda : List Task} {path : List String}
      (off : rule.name ∉ path) (further : Unwinds agenda path) :
      Unwinds (.attach rule optional repeats :: agenda) path
  | plain {task : Task} {agenda : List Task} {path : List String} (plain : task.isPlain = true)
      (further : Unwinds agenda path) : Unwinds (task :: agenda) path
  | leave {name : String} {agenda : List Task} {path : List String} (off : name ∉ path)
      (further : Unwinds agenda path) : Unwinds (.leave name :: agenda) (name :: path)

theorem Unwinds.nodup (h : Unwinds agenda path) : path.Nodup := by
  induction h with
  | nil => exact .nil
  | entry _ ih => exact ih
  | attach _ _ ih => exact ih
  | plain _ _ ih => exact ih
  | leave off _ ih => exact List.nodup_cons.2 ⟨off, ih⟩

theorem Unwinds.plain_append {led : List Task} (plain : ∀ task ∈ led, task.isPlain = true)
    (h : Unwinds agenda path) : Unwinds (led ++ agenda) path := by
  induction led with
  | nil => exact h
  | cons task led ih =>
    exact .plain (plain task List.mem_cons_self) (ih fun other hother => plain other (List.mem_cons_of_mem _ hother))

/-- The names of the rules that are unfolded at some nodes. -/
def unfolded (nodes : List Node) : List String := nodes.filterMap fun node => node.label.ruleName?

/-- The state of an assembly that is under way. -/
structure Sound (rules : List Rule) (now : Assembly) (agenda : List Task) : Prop where
  known : ∀ task ∈ agenda, task.Known rules
  unwinds : Unwinds agenda now.path
  named : unfolded now.nodes ⊆ Rules.names rules

theorem sound_bare (known : ∀ rule ∈ entries, rule ∈ rules) : Sound rules bare (entries.map .entry) where
  known := by
    intro task htask
    obtain ⟨rule, hrule, rfl⟩ := List.mem_map.1 htask
    exact known rule hrule
  unwinds := by
    clear known
    induction entries with
    | nil => exact .nil
    | cons rule entries ih => exact .entry ih
  named := by simp [bare, unfolded, Label.ruleName?]

/-! ## One step -/

/-- Does the task attach a rule of the given name? -/
def Task.starts (name : String) : Task → Bool
  | .attach rule .. => rule.name == name
  | _ => false

/-- Does the task end the attaching of a rule of the given name? -/
def Task.returns (name : String) : Task → Bool
  | .leave other => other == name
  | _ => false

/-- What one step does: it succeeds, keeps the assembly sound, and changes the path by the rule that starts or
returns. -/
structure Steps (rules : List Rule) (now : Assembly) (task : Task) (agenda : List Task) (next : Assembly)
    (led : List Task) : Prop where
  performed : now.perform rules task = .ok (next, led)
  sound : Sound rules next (led ++ agenda)
  path (name : String) : [task].countP (Task.starts name) + now.path.count name =
    [task].countP (Task.returns name) + next.path.count name

theorem unfolded_modify {change : Node → Node}
    (same : ∀ node, (change node).label.ruleName? = node.label.ruleName?) (nodes : List Node) (id : Nat) :
    unfolded (nodes.modify id change) = unfolded nodes := by
  induction nodes generalizing id with
  | nil => simp
  | cons node nodes ih =>
    simp only [unfolded] at ih ⊢
    cases id <;> simp [List.filterMap_cons, same, ih]

@[simp] theorem unfolded_link (now : Assembly) (place : Place) (id : Nat) :
    unfolded (now.link place id).nodes = unfolded now.nodes := by
  cases place <;> simp [link, Place.hang, unfolded_modify]

@[simp] theorem unfolded_add (now : Assembly) (label : Label) :
    unfolded (now.add label).nodes = unfolded now.nodes ++ label.ruleName?.toList := by
  cases h : label.ruleName? <;> simp [add, unfolded, h]

@[simp] theorem unfolded_declare (now : Assembly) (method : Option Nat) (param : Param) :
    unfolded (now.declare method param).nodes = unfolded now.nodes := by
  cases method with
  | none => rfl
  | some id =>
    refine unfolded_modify (fun node => ?_) now.nodes id
    cases node.label <;> rfl

/-- Attaching a rule puts it on the path, from which the last of the tasks that it leads to takes it off. -/
theorem Sound.steps_attach (resolved : Rules.Resolved rules) {rule : Rule} {optional : Bool} {repeats : Repeat}
    (sound : Sound rules now (.attach rule optional repeats :: agenda)) :
    ∃ next led, Steps rules now (.attach rule optional repeats) agenda next led := by
  obtain ⟨hrule, known⟩ := List.forall_mem_cons.1 sound.known
  have off : rule.name ∉ now.path := by cases sound.unwinds <;> first | assumption | contradiction
  have further : Unwinds agenda now.path := by cases sound.unwinds <;> assumption
  refine ⟨_, _, perform_attach off optional repeats, ⟨?_, ?_, ?_⟩, fun name => ?_⟩
  · rw [List.append_assoc]
    refine List.forall_mem_append.2 ⟨fun task htask => ?_, List.forall_mem_cons.2 ⟨trivial, known⟩⟩
    obtain ⟨definition, hdefinition, rfl⟩ := List.mem_map.1 htask
    intro segment hsegment target htarget
    exact resolved rule.name target ⟨rule, hrule, rfl, definition, hdefinition, segment, hsegment, htarget⟩
  · rw [List.append_assoc]
    apply Unwinds.plain_append
    · simp [Task.isPlain]
    · exact .leave off further
  · simp only [unfolded_add]
    exact List.append_subset.2 ⟨sound.named, by simpa [Label.ruleName?] using Rules.mem_names_of_mem hrule⟩
  · simp [Task.starts, Task.returns, List.count_cons]
    omega

/-- Going on in a definition leaves the path as it is. -/
theorem Sound.steps_define {owner : String} {place : Place} {method : Option Nat} {rest : Definition}
    (sound : Sound rules now (.define owner place method rest :: agenda)) :
    ∃ next led, Steps rules now (.define owner place method rest) agenda next led := by
  obtain ⟨hdefinition, known⟩ := List.forall_mem_cons.1 sound.known
  have further : Unwinds agenda now.path := by cases sound.unwinds; assumption
  cases rest with
  | nil => exact ⟨_, _, rfl, ⟨known, further, sound.named⟩, fun _ => rfl⟩
  | cons segment rest =>
    obtain ⟨hsegment, hrest⟩ := List.forall_mem_cons.1 hdefinition
    cases segment with
    | symbol =>
      refine ⟨_, _, rfl, ⟨?_, .plain rfl (.plain rfl further), ?_⟩, fun _ => rfl⟩
      · exact List.forall_mem_cons.2 ⟨trivial, List.forall_mem_cons.2 ⟨hrest, known⟩⟩
      · simpa [Label.ruleName?] using sound.named
    | reference target =>
      refine ⟨_, _, rfl, ⟨?_, .plain rfl (.plain rfl (.plain rfl further)), sound.named⟩, fun _ => rfl⟩
      refine List.forall_mem_cons.2 ⟨hsegment target rfl, ?_⟩
      exact List.forall_mem_cons.2 ⟨trivial, List.forall_mem_cons.2 ⟨hrest, known⟩⟩
    | parameter | value =>
      refine ⟨_, _, rfl, ⟨?_, .plain rfl further, ?_⟩, fun _ => rfl⟩
      · exact List.forall_mem_cons.2 ⟨hrest, known⟩
      · rw [unfolded_declare]
        exact sound.named
    | alternation =>
      refine ⟨_, _, rfl, ⟨?_, .plain rfl further, sound.named⟩, fun _ => rfl⟩
      exact List.forall_mem_cons.2 ⟨hrest, known⟩

/-- Every task that comes up can be handled. -/
theorem Sound.step (resolved : Rules.Resolved rules) (sound : Sound rules now (task :: agenda)) :
    ∃ next led, Steps rules now task agenda next led := by
  obtain ⟨hfirst, known⟩ := List.forall_mem_cons.1 sound.known
  obtain ⟨nodes, path⟩ := now
  have unwinds := sound.unwinds
  cases task with
  | entry rule =>
    obtain rfl : path = [] := by cases unwinds <;> first | rfl | contradiction
    have further : Unwinds agenda [] := by cases unwinds <;> assumption
    refine ⟨_, _, rfl, ⟨?_, .attach List.not_mem_nil (.plain rfl further), sound.named⟩, fun _ => rfl⟩
    exact List.forall_mem_cons.2 ⟨hfirst, List.forall_mem_cons.2 ⟨trivial, known⟩⟩
  | attach => exact sound.steps_attach resolved
  | refer owner target optional repeats =>
    have further : Unwinds agenda path := by cases unwinds; assumption
    obtain ⟨rule, found⟩ := Rules.mem_names_iff.1 hfirst
    obtain rfl := Rules.find?_name found
    by_cases on : rule.name ∈ path
    · refine ⟨_, _, (perform_refer found).trans (if_pos on), ⟨known, further, ?_⟩, fun _ => rfl⟩
      simpa [Label.ruleName?] using sound.named
    · refine ⟨_, _, (perform_refer found).trans (if_neg on), ⟨?_, .attach on further, sound.named⟩, fun _ => rfl⟩
      exact List.forall_mem_cons.2 ⟨Rules.find?_mem found, known⟩
  | define => exact sound.steps_define
  | link place id =>
    have further : Unwinds agenda path := by cases unwinds; assumption
    refine ⟨_, _, rfl, ⟨known, further, ?_⟩, fun _ => rfl⟩
    rw [unfolded_link]
    exact sound.named
  | leave name =>
    cases unwinds with
    | plain plain => cases plain
    | leave off further =>
      refine ⟨_, _, rfl, ⟨known, by simpa using further, sound.named⟩, fun other => ?_⟩
      simp [Task.starts, Task.returns, List.count_cons]
      omega

/-! ## All steps -/

/-- The tasks that are handled in some steps, oldest first. -/
def handled (rules : List Rule) : Nat → Assembly → List Task → List Task
  | 0, _, _ => []
  | _ + 1, _, [] => []
  | steps + 1, now, task :: agenda =>
    match now.perform rules task with
    | .error _ => []
    | .ok (next, led) => task :: handled rules steps next (led ++ agenda)

/-- No step fails, the assembly stays sound, and the path changes by the rules that start and return. -/
theorem Sound.run (resolved : Rules.Resolved rules) (sound : Sound rules now agenda) (steps : Nat) :
    ∃ later left, runFor rules steps now agenda = .ok (later, left) ∧ Sound rules later left ∧
      ∀ name, (handled rules steps now agenda).countP (Task.starts name) + now.path.count name =
        (handled rules steps now agenda).countP (Task.returns name) + later.path.count name := by
  induction steps generalizing now agenda with
  | zero => exact ⟨now, agenda, rfl, sound, fun _ => rfl⟩
  | succ steps ih =>
    cases agenda with
    | nil => exact ⟨now, [], rfl, sound, fun _ => rfl⟩
    | cons task agenda =>
      obtain ⟨next, led, step⟩ := sound.step resolved
      obtain ⟨later, left, ran, sound, path⟩ := ih step.sound
      rw [runFor, handled, step.performed]
      refine ⟨later, left, ran, sound, fun name => ?_⟩
      have first := step.path name
      have rest := path name
      rw [List.countP_singleton, List.countP_singleton] at first
      rw [List.countP_cons, List.countP_cons]
      omega

/-- Does the task attach a rule, or what a reference stands for? -/
def Task.isCall : Task → Bool
  | .attach .. => true
  | .refer .. => true
  | _ => false

/-- Attaching a rule, or what a reference stands for, comes to an end with the path as it was. -/
theorem Sound.returns (distinct : (Rules.names rules).Nodup) (resolved : Rules.Resolved rules)
    (sound : Sound rules now (task :: agenda)) (call : task.isCall = true) :
    ∃ after, after.path = now.path ∧ Settles rules now [task] after := by
  obtain ⟨nodes, path⟩ := now
  have attached : ∀ {rule : Rule} (off : rule.name ∉ path) (hrule : rule ∈ rules) (optional repeats),
      ∃ after : Assembly, after.path = path ∧ Settles rules ⟨nodes, path⟩ [.attach rule optional repeats] after :=
    fun off hrule optional repeats =>
      ⟨_, rfl, settles_attach distinct resolved path _ off hrule optional repeats nodes⟩
  cases task with
  | attach rule optional repeats =>
    have off : rule.name ∉ path := by cases sound.unwinds <;> first | assumption | contradiction
    exact attached off (sound.known _ List.mem_cons_self) optional repeats
  | refer owner target optional repeats =>
    obtain ⟨rule, found⟩ := Rules.mem_names_iff.1 (sound.known _ List.mem_cons_self)
    obtain rfl := Rules.find?_name found
    by_cases on : rule.name ∈ path
    · exact ⟨Assembly.add ⟨nodes, path⟩ (.backEdge rule.name owner optional repeats), rfl,
        settles_of_perform ((perform_refer found).trans (if_pos on)) (settles_nil _)⟩
    · obtain ⟨after, hpath, settled⟩ := attached on (Rules.find?_mem found) optional repeats
      exact ⟨after, hpath, settles_of_perform ((perform_refer found).trans (if_neg on)) settled⟩
  | entry | define | link | leave => cases call

/-! ## The tree of entry rules -/

/-- How a tree of entry rules is put together. -/
structure Orderly (rules entries : List Rule) (tree : Tree) : Prop where
  /-- It comes to an end with the nodes of the tree. -/
  ends : ∃ steps, runFor rules steps bare (entries.map .entry) = .ok (⟨tree.nodes.toList, []⟩, [])
  /-- No step fails, and at every moment a rule is on the path exactly if it has been attached once more than its
  attaching has returned. -/
  path (steps : Nat) : ∃ now agenda, runFor rules steps bare (entries.map .entry) = .ok (now, agenda) ∧
    now.path.Nodup ∧ ∀ name, (handled rules steps bare (entries.map .entry)).countP (Task.starts name) =
      (handled rules steps bare (entries.map .entry)).countP (Task.returns name) +
        if name ∈ now.path then 1 else 0
  /-- Whenever a rule or a reference is about to be attached, that comes to an end, whatever is to be done
  afterwards, and leaves the path as it was. -/
  returns (steps : Nat) (now : Assembly) (task : Task) (agenda : List Task) :
    runFor rules steps bare (entries.map .entry) = .ok (now, task :: agenda) → task.isCall = true →
      ∃ more after, after.path = now.path ∧
        ∀ rest, runFor rules more now (task :: rest) = .ok (after, rest)
  /-- Among nodes each of which contains the next one, no rule is unfolded twice, and no more rules than there are. -/
  nesting (ids : List Nat) : ids.IsChain tree.Contains →
    (tree.ruleNames ids).Nodup ∧ (tree.ruleNames ids).length ≤ rules.length

/-- The rules that are unfolded in a tree that has been put together are rules. -/
theorem Sound.ruleNames_subset {tree : Tree} (sound : Sound rules ⟨tree.nodes.toList, path⟩ agenda)
    (ids : List Nat) : tree.ruleNames ids ⊆ Rules.names rules := by
  intro name hname
  obtain ⟨id, _, hlabel⟩ := List.mem_filterMap.1 hname
  cases hnode : tree.node? id with
  | none => simp [Tree.label, hnode, Label.ruleName?] at hlabel
  | some node =>
    rw [(Tree.node_facts hnode).1] at hlabel
    have hmem : node ∈ tree.nodes := Array.mem_of_getElem? hnode
    exact sound.named (List.mem_filterMap.2 ⟨node, Array.mem_toList_iff.2 hmem, hlabel⟩)

/-- However the references lead back to each other, the tree of any entry rules is put together in order. -/
theorem orderly_ofEntries (distinct : (Rules.names rules).Nodup) (resolved : Rules.Resolved rules)
    (known : ∀ rule ∈ entries, rule ∈ rules) (maxDepth : Nat) :
    Orderly rules entries (Tree.ofEntries maxDepth ((Rules.names entries).map (Unfolding.ofEntry rules))) := by
  have sound := sound_bare known
  obtain ⟨steps, settled⟩ := settles_entries distinct resolved known maxDepth
  have ran := settled []
  rw [List.append_nil] at ran
  refine ⟨⟨steps, ran⟩, fun steps => ?_, fun steps now task agenda reached call => ?_, fun ids nested => ?_⟩
  · obtain ⟨now, agenda, reached, sound, path⟩ := sound.run resolved steps
    refine ⟨now, agenda, reached, sound.unwinds.nodup, fun name => ?_⟩
    rw [← sound.unwinds.nodup.count, ← path name]
    rfl
  · obtain ⟨later, left, hlater, sound, _⟩ := sound.run resolved steps
    obtain ⟨rfl, rfl⟩ := Prod.mk.inj (Except.ok.inj (hlater.symm.trans reached))
    obtain ⟨after, hpath, more, hmore⟩ := sound.returns distinct resolved call
    exact ⟨more, after, hpath, hmore⟩
  · obtain ⟨later, left, hlater, sound, _⟩ := sound.run resolved steps
    obtain ⟨rfl, rfl⟩ := Prod.mk.inj (Except.ok.inj (hlater.symm.trans ran))
    have nodup := (Tree.scoped_ofEntries rules maxDepth (Rules.names entries)).nodup_ruleNames nested
    refine ⟨nodup, ?_⟩
    have fewer := (List.subperm_of_subset nodup (sound.ruleNames_subset ids)).length_le
    rwa [show (Rules.names rules).length = rules.length from List.length_map _] at fewer

/-- Rules that refer to themselves and to each other are put together in order. -/
theorem orderly_ofEntries_mutual :
    (Rules.names Rules.mutualRules).Nodup ∧ Rules.Resolved Rules.mutualRules ∧
      (∀ rule ∈ Rules.mutualRules, rule ∈ Rules.mutualRules) ∧
      Orderly Rules.mutualRules Rules.mutualRules
        (Tree.ofEntries 64 ((Rules.names Rules.mutualRules).map (Unfolding.ofEntry Rules.mutualRules))) := by
  have distinct : (Rules.names Rules.mutualRules).Nodup := by decide
  have resolved : Rules.Resolved Rules.mutualRules := Rules.resolved_iff.2 (by decide +kernel)
  exact ⟨distinct, resolved, fun _ h => h, orderly_ofEntries distinct resolved (fun _ h => h) 64⟩

end Assembly

end ChainGrammar
