import ChainGrammar.Proofs.Derivation.Context
import ChainGrammar.Proofs.Derivation.Runs

/-!
# Whatever is run is derived

A run of the plain machine from a place in the tree splits into what is derived from the rest of the
definition at that place and what is derived after it (`Plain.derives_of_runs`).  What comes after a
definition is told by the frames of the stack: for each, further occurrences of its rule, and then the
rest of the definition to which the frame returns (`Plain.Follows`).
-/

set_option autoImplicit false

namespace ChainGrammar

namespace Plain

/-- Where the walk of a rule returns to: the rest of a definition within the rules being unfolded. -/
structure Return where
  enclosing : Tree.Enclosing
  rest : Definition

/-- The frames of the stack are those of the rules being unfolded, and return to the given places. -/
inductive Stands (tree : Tree) (rules : List Rule) :
    Tree.Enclosing → List Return → List Frame → Prop where
  | bottom : Stands tree rules [] [] []
  | frame {enclosing outer : Tree.Enclosing} {returns : List Return} {owner name : String}
      {optional : Bool} {repeats : Repeat} {rest : Definition} {frame : Frame} {stack : List Frame}
      (refers : tree.Refers rules enclosing frame.origin name optional repeats frame.body outer)
      (leaves : repeats.Leaves frame.iteration 1)
      (proper : ∀ segment ∈ rest, segment.Proper)
      (shown : tree.ShowsDefinition rules enclosing owner rest (tree.children frame.origin))
      (below : Stands tree rules enclosing returns stack) :
      Stands tree rules ((name, frame.body) :: outer) (⟨enclosing, rest⟩ :: returns) (frame :: stack)

/-- The calls can be derived behind the end of the current definition. -/
inductive Follows (tree : Tree) (rules : List Rule) :
    Tree.Enclosing → List Return → List Frame → List Call → Prop where
  | bottom : Follows tree rules [] [] [] []
  | frame {enclosing outer : Tree.Enclosing} {returns : List Return} {name : String} {body count : Nat}
      {rest : Definition} {frame : Frame} {stack : List Frame} {first others later : List Call}
      (leaves : (tree.label frame.origin).repeats.Leaves frame.iteration (count + 1))
      (occur : Derives rules (Setting.Into tree.maxDepth)
        ⟨enclosing.path, Frame.depthOf tree stack⟩ (.occurrences name count) first)
      (yields : Derives rules (Setting.Into tree.maxDepth)
        ⟨enclosing.path, Frame.depthOf tree stack⟩ (.segments rest) others)
      (below : Follows tree rules enclosing returns stack later) :
      Follows tree rules ((name, body) :: outer) (⟨enclosing, rest⟩ :: returns) (frame :: stack)
        (first ++ (others ++ later))

variable {tree : Tree} {rules : List Rule} {enclosing outer : Tree.Enclosing} {returns : List Return}
  {stack : List Frame} {frame : Frame} {calls later : List Call} {definition : Definition}
  {owner name : String} {id body : Nat} {optional : Bool} {repeats : Repeat}

/-- The rules being unfolded are shown. -/
theorem Stands.inside (stands : Stands tree rules enclosing returns stack) :
    tree.Inside rules enclosing := by
  cases stands with
  | bottom => exact .nil
  | frame refers => exact refers.inside

/-- Arguments in front of a definition yield nothing. -/
theorem derives_arguments {ς : Type} {into : ς → String → ς → Prop} {setting : ς}
    {arguments : Definition} (harguments : ∀ argument ∈ arguments, argument.isAnchor = false)
    (h : Derives rules into setting (.segments definition) calls) :
    Derives rules into setting (.segments (arguments ++ definition)) calls := by
  induction arguments with
  | nil => exact h
  | cons argument arguments ih =>
    exact .skip (.inr (harguments argument List.mem_cons_self))
      (ih fun other hother => harguments other (List.mem_cons_of_mem _ hother))

/-- The rest of a definition behind its last node yields nothing. -/
theorem derives_nil_of_last {ς : Type} {into : ς → String → ς → Prop} {setting : ς}
    (shown : tree.ShowsDefinition rules enclosing owner definition (tree.children id))
    (last : tree.next? id = none) : Derives rules into setting (.segments definition) [] := by
  rcases shown.ids_cases with ⟨next, hnext⟩ | ⟨_, harguments⟩
  · rw [Tree.next?, hnext] at last
    cases last
  · rw [← List.append_nil definition]
    exact derives_arguments harguments .done

/-- At a method no rule is entered. -/
theorem opens?_eq_none_of_isMethod (h : (tree.label id).isMethod = true) : tree.opens? id = none := by
  unfold Tree.opens?
  cases hlabel : tree.label id with
  | method => rfl
  | root | rule | backEdge => simp [hlabel, Label.isMethod] at h

/-- An alternative of a rule begins one of its definitions. -/
theorem exists_definition_of_mem (inside : tree.Inside rules ((name, body) :: outer))
    {alternative : Nat} (member : alternative ∈ tree.body body) :
    ∃ rule definition, Rules.find? rules name = some rule ∧ definition ∈ rule.definitions ∧
      tree.ShowsDefinition rules ((name, body) :: outer) name definition [alternative] := by
  obtain ⟨rule, found, definitions⟩ := inside.definitions
  obtain ⟨definition, hdefinition, hshows⟩ := definitions.exists_definition member
  exact ⟨rule, definition, found, hdefinition, hshows⟩

/-- One occurrence of the rule at a node comes in front of those that follow. -/
theorem derives_another {count : Nat} {first others : List Call} {rule : Rule}
    (refers : tree.Refers rules enclosing frame.origin name optional repeats body outer)
    (within : Frame.depthOf tree (frame :: stack) ≤ tree.maxDepth)
    (found : Rules.find? rules name = some rule) (member : definition ∈ rule.definitions)
    (yields : Derives rules (Setting.Into tree.maxDepth)
      ⟨name :: outer.path, Frame.depthOf tree (frame :: stack)⟩ (.segments definition) first)
    (occur : Derives rules (Setting.Into tree.maxDepth)
      ⟨enclosing.path, Frame.depthOf tree stack⟩ (.occurrences name count) others) :
    Derives rules (Setting.Into tree.maxDepth) ⟨enclosing.path, Frame.depthOf tree stack⟩
      (.occurrences name (count + 1)) (first ++ others) := by
  rw [Tree.depthOf_cons] at within yields
  exact .another (refers.into within) (.rule found member yields) occur

/-- What is left of a run at a place: a part that the definition yields, and one that follows it. -/
def Splits (tree : Tree) (rules : List Rule) (enclosing : Tree.Enclosing) (returns : List Return)
    (stack : List Frame) (definition : Definition) (calls : List Call) : Prop :=
  ∃ first later, calls = first ++ later ∧
    Derives rules (Setting.Into tree.maxDepth) ⟨enclosing.path, Frame.depthOf tree stack⟩
      (.segments definition) first ∧
    Follows tree rules enclosing returns stack later

/-- Runs from the state split wherever the state is. -/
def Derived (tree : Tree) (rules : List Rule) : State → List Call → Prop
  | .before id stack, calls => ∀ (enclosing : Tree.Enclosing) (returns : List Return) (owner : String)
      (definition : Definition), Stands tree rules enclosing returns stack →
      (∀ segment ∈ definition, segment.Proper) →
      tree.ShowsDefinition rules enclosing owner definition [id] →
      Splits tree rules enclosing returns stack definition calls
  | .behind id stack, calls => ∀ (enclosing : Tree.Enclosing) (returns : List Return)
      (owner : String) (definition : Definition), Stands tree rules enclosing returns stack →
      (∀ segment ∈ definition, segment.Proper) →
      tree.ShowsDefinition rules enclosing owner definition (tree.children id) →
      Splits tree rules enclosing returns stack definition calls
  | .complete, calls => calls = []

/-- Where no method is at the node, it is that of a reference. -/
theorem exists_reference_of_opens (inside : tree.Inside rules enclosing)
    (opens : tree.opens? id = some body)
    (proper : ∀ segment ∈ definition, segment.Proper)
    (shown : tree.ShowsDefinition rules enclosing owner definition [id]) :
    ∃ arguments name optional repeats rest outer,
      definition = arguments ++ .reference name optional repeats :: rest ∧
        (∀ argument ∈ arguments, argument.isAnchor = false) ∧ repeats.Proper ∧
        tree.Refers rules enclosing id name optional repeats body outer ∧
        tree.ShowsDefinition rules enclosing owner rest (tree.children id) := by
  obtain ⟨arguments, segment, rest, rfl, harguments, further, ⟨name, params, optional, rfl, label⟩ |
    ⟨name, optional, repeats, body', outer, rfl, refers⟩⟩ := shown.node inside
  · rw [opens?_eq_none_of_isMethod (by rw [label]; rfl)] at opens
    cases opens
  · obtain rfl := Option.some.inj (opens.symm.trans refers.opens)
    exact ⟨arguments, name, optional, repeats, rest, outer, rfl, harguments,
      proper (.reference name optional repeats) (by simp), refers, further⟩

/-- Entering a rule at a reference. -/
theorem derived_descend (authored : ∀ rule ∈ rules, ∀ definition ∈ rule.definitions,
      ∀ segment ∈ definition, segment.Proper)
    {alternative : Nat} (opens : tree.opens? id = some body)
    (within : Frame.depthOf tree (⟨body, id, 1⟩ :: stack) ≤ tree.maxDepth)
    (member : alternative ∈ tree.body body)
    (ih : Derived tree rules (.before alternative (⟨body, id, 1⟩ :: stack)) calls) :
    Derived tree rules (.before id stack) calls := by
  intro enclosing returns owner definition stands proper shown
  obtain ⟨arguments, name, optional, repeats, rest, outer, rfl, harguments, hproper, refers, further⟩ :=
    exists_reference_of_opens stands.inside opens proper shown
  obtain ⟨rule, inner, found, hinner, hshows⟩ := exists_definition_of_mem refers.inside member
  have hrest : ∀ segment ∈ rest, segment.Proper := fun segment hsegment =>
    proper segment (by simp [hsegment])
  let frame : Frame := ⟨body, id, 1⟩
  have hframe : Stands tree rules ((name, frame.body) :: outer) (⟨enclosing, rest⟩ :: returns)
      (frame :: stack) :=
    .frame refers hproper.leaves hrest further stands
  obtain ⟨first, later, rfl, hfirst, hlater⟩ := ih _ _ name inner hframe
    (authored rule (Rules.find?_mem found) inner hinner) hshows
  cases hlater with
  | @frame _ _ _ _ _ count _ _ _ occur others later leaves hoccur yields below =>
    have hcount : Derives rules (Setting.Into tree.maxDepth)
        ⟨enclosing.path, Frame.depthOf tree stack⟩ (.occurrences name (count + 1)) (first ++ occur) :=
      derives_another refers within found hinner hfirst hoccur
    have admits : repeats.Admits (count + 1) := by
      rw [repeats.admits_succ_iff, ← refers.repeats]
      exact leaves
    refine ⟨first ++ occur ++ others, later, ?_,
      derives_arguments harguments (.reference admits hcount yields), below⟩
    simp only [List.append_assoc]

/-- Leaving out what is optional. -/
theorem derived_skip (omissible : (tree.label id).optional = true)
    (ih : Derived tree rules (.behind id stack) calls) :
    Derived tree rules (.before id stack) calls := by
  intro enclosing returns owner definition stands proper shown
  obtain ⟨arguments, segment, rest, rfl, harguments, further, hnode⟩ := shown.node stands.inside
  have hoptional : segment.isOptional = true := by
    rcases hnode with ⟨name, params, optional, rfl, label⟩ |
      ⟨name, optional, repeats, body, outer, rfl, refers⟩
    · rw [label] at omissible
      exact omissible
    · exact refers.optional.symm.trans omissible
  obtain ⟨first, later, rfl, hfirst, hlater⟩ := ih enclosing returns owner rest stands
    (fun segment hsegment => proper segment (by simp [hsegment])) further
  exact ⟨first, later, rfl, derives_arguments harguments (.skip (.inl hoptional) hfirst), hlater⟩

/-- Going on to the next node of a definition. -/
theorem derived_next {following : Nat} (found : tree.next? id = some following)
    (ih : Derived tree rules (.before following stack) calls) :
    Derived tree rules (.behind id stack) calls := by
  intro enclosing returns owner definition stands proper shown
  rcases shown.ids_cases with ⟨next, hnext⟩ | ⟨hnil, _⟩
  · rw [Tree.next?, hnext] at found
    obtain rfl := Option.some.inj found
    rw [hnext] at shown
    exact ih enclosing returns owner definition stands proper shown
  · rw [Tree.next?, hnil] at found
    cases found

/-- Opening another occurrence of a rule behind the end of one. -/
theorem derived_again (authored : ∀ rule ∈ rules, ∀ definition ∈ rule.definitions,
      ∀ segment ∈ definition, segment.Proper)
    {alternative : Nat} (last : tree.next? id = none)
    (allows : (tree.label frame.origin).repeats.allowsAnother frame.iteration = true)
    (within : Frame.depthOf tree (frame :: stack) ≤ tree.maxDepth)
    (member : alternative ∈ tree.body frame.body)
    (ih : Derived tree rules
      (.before alternative (frame.following (tree.label frame.origin).repeats :: stack)) calls) :
    Derived tree rules (.behind id (frame :: stack)) calls := by
  intro enclosing returns owner definition stands proper shown
  obtain ⟨horigin, hbody⟩ := frame.following_same (tree.label frame.origin).repeats
  cases stands with
  | @frame enclosing outer returns owner' name optional repeats rest _ _ refers leaves hrest further
      below =>
    have hrepeats := refers.repeats
    subst hrepeats
    obtain ⟨rule, inner, found, hinner, hshows⟩ := exists_definition_of_mem refers.inside member
    have hframe : Stands tree rules
        ((name, (frame.following (tree.label frame.origin).repeats).body) :: outer)
        (⟨enclosing, rest⟩ :: returns) (frame.following (tree.label frame.origin).repeats :: stack) :=
      .frame (by rw [horigin, hbody]; exact refers) (Repeat.leaves_following allows) hrest
        (by rw [horigin]; exact further) below
    rw [hbody] at hframe
    obtain ⟨first, later, rfl, hfirst, hlater⟩ := ih _ _ name inner hframe
      (authored rule (Rules.find?_mem found) inner hinner) hshows
    have hdepth : Frame.depthOf tree (frame.following (tree.label frame.origin).repeats :: stack) =
        Frame.depthOf tree (frame :: stack) := by
      rw [Frame.depthOf_cons, Frame.depthOf_cons, horigin]
    rw [hdepth] at hfirst
    cases hlater with
    | @frame _ _ _ _ _ count _ _ _ occur others later hleaves hoccur yields hbelow =>
      -- the occurrence that has been entered is one more of those that the frame below still owes
      have hcount := derives_another refers within found hinner hfirst hoccur
      rw [horigin] at hleaves
      have hmore := ((tree.label frame.origin).repeats.leaves_succ_iff frame count).2 ⟨allows, hleaves⟩
      refine ⟨[], first ++ occur ++ (others ++ later), ?_, derives_nil_of_last shown last,
        .frame hmore hcount yields hbelow⟩
      simp only [List.append_assoc, List.nil_append]

/-- Leaving a rule behind the end of an occurrence. -/
theorem derived_leave (last : tree.next? id = none)
    (ih : Derived tree rules (.behind frame.origin stack) calls) :
    Derived tree rules (.behind id (frame :: stack)) calls := by
  intro enclosing returns owner definition stands proper shown
  cases stands with
  | @frame enclosing outer returns owner' name optional repeats rest _ _ refers leaves hrest further
      below =>
    obtain ⟨first, later, rfl, hfirst, hlater⟩ := ih enclosing returns owner' rest below hrest further
    have hleaves : (tree.label frame.origin).repeats.Leaves frame.iteration (0 + 1) := by
      rw [refers.repeats]
      exact leaves
    exact ⟨[], [] ++ (first ++ later), rfl, derives_nil_of_last shown last,
      .frame hleaves .enough hfirst hlater⟩

/-- Calling a method. -/
theorem derived_call {next : Call} (accepts : Accepts tree id next)
    (ih : Derived tree rules (.behind id stack) calls) :
    Derived tree rules (.before id stack) (next :: calls) := by
  intro enclosing returns owner definition stands proper shown
  obtain ⟨hmethod, hname, hparams⟩ := accepts
  obtain ⟨arguments, segment, rest, rfl, harguments, further, ⟨name, params, optional, rfl, label⟩ |
    ⟨name, optional, repeats, body, outer, rfl, refers⟩⟩ := shown.node stands.inside
  · obtain ⟨first, later, rfl, hfirst, hlater⟩ := ih enclosing returns owner rest stands
      (fun segment hsegment => proper segment (by simp [hsegment])) further
    rw [label] at hname hparams
    obtain ⟨method, args⟩ := next
    obtain rfl : name = method := hname
    have fits : args.length = params.length + (Unfolding.declaredParams rest).length := by
      rw [← hparams]
      simp [Label.params]
    exact ⟨⟨name, args⟩ :: first, later, rfl, derives_arguments harguments (.symbol fits hfirst), hlater⟩
  · have hnone := opens?_eq_none_of_isMethod hmethod
    rw [refers.opens] at hnone
    cases hnone

/-- Runs split at every place. -/
theorem derived_of_runs (authored : ∀ rule ∈ rules, ∀ definition ∈ rule.definitions,
      ∀ segment ∈ definition, segment.Proper)
    {state : State} (runs : Runs tree state calls) : Derived tree rules state calls := by
  -- the run is taken apart from the front, so what it splits into is known behind each move
  induction runs with
  | complete => rfl
  | silent move _ ih =>
    cases move with
    | descend opens within member =>
      exact derived_descend authored (Tree.opens?_eq_some_iff.2 opens) within member ih
    | skip omissible => exact derived_skip omissible ih
    | next found => exact derived_next found ih
    | again last allows within member => exact derived_again authored last allows within member ih
    | leave last => exact derived_leave last ih
    | finish last =>
      intro enclosing returns owner definition stands proper shown
      cases stands
      obtain rfl := ih
      exact ⟨[], [], rfl, derives_nil_of_last shown last, .bottom⟩
  | call accepts _ ih => exact derived_call accepts ih

end Plain

end ChainGrammar
