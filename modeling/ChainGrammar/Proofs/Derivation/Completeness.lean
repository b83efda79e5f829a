import ChainGrammar.Proofs.Derivation.Context
import ChainGrammar.Proofs.Derivation.Runs

/-!
# Whatever is derived can be run

A derivation from a setting is followed by the plain machine at every place of the tree with that
setting (`Plain.runnable_of_derives`): if the machine gets to its end by some calls from where the
derived part is over, it gets there by the derived calls and these.  What "over" means depends on the
goal: behind the last node of a definition, or behind the node of a reference.
-/

set_option autoImplicit false

namespace ChainGrammar

namespace Plain

/-- The machine can make the calls of the goal wherever in the tree the setting is, and then whatever
calls take it to its end from there. -/
def Runnable (tree : Tree) (rules : List Rule) (setting : Setting) : Goal → List Call → Prop
  | .rule name, calls => ∀ (outer : Tree.Enclosing) (frame : Frame) (stack : List Frame)
      (rest : List Call), tree.Inside rules ((name, frame.body) :: outer) →
      setting = ⟨name :: outer.path, Frame.depthOf tree (frame :: stack)⟩ →
      Frame.depthOf tree (frame :: stack) ≤ tree.maxDepth →
      (∀ last, tree.next? last = none → Runs tree (.behind last (frame :: stack)) rest) →
      ∃ alternative ∈ tree.body frame.body,
        Runs tree (.before alternative (frame :: stack)) (calls ++ rest)
  | .segments definition, calls => ∀ (enclosing : Tree.Enclosing) (owner : String) (ids : List Nat)
      (stack : List Frame) (rest : List Call), tree.Inside rules enclosing →
      tree.ShowsDefinition rules enclosing owner definition ids →
      setting = ⟨enclosing.path, Frame.depthOf tree stack⟩ →
      Frame.depthOf tree stack ≤ tree.maxDepth →
      (∀ last, tree.next? last = none → Runs tree (.behind last stack) rest) →
      (∀ id ∈ ids, Runs tree (.before id stack) (calls ++ rest)) ∧ (ids = [] → calls = [])
  | .occurrences name count, calls => ∀ (enclosing outer : Tree.Enclosing) (optional : Bool)
      (repeats : Repeat) (frame : Frame) (stack : List Frame) (rest : List Call),
      tree.Refers rules enclosing frame.origin name optional repeats frame.body outer →
      setting = ⟨enclosing.path, Frame.depthOf tree stack⟩ →
      Frame.depthOf tree stack ≤ tree.maxDepth →
      repeats.Leaves frame.iteration count → Runs tree (.behind frame.origin stack) rest →
      (count = 0 → calls = []) ∧
        (0 < count → Frame.depthOf tree (frame :: stack) ≤ tree.maxDepth ∧
          ∃ alternative ∈ tree.body frame.body,
            Runs tree (.before alternative (frame :: stack)) (calls ++ rest))

variable {tree : Tree} {rules : List Rule} {setting inner : Setting} {definition : Definition}
  {calls first others : List Call} {name : String} {optional : Bool} {repeats : Repeat}

/-- Behind a node the machine makes the calls of what is left of the definition. -/
theorem runs_behind (runnable : Runnable tree rules setting (.segments definition) calls)
    {enclosing : Tree.Enclosing} {owner : String} {id : Nat} {stack : List Frame} {rest : List Call}
    (inside : tree.Inside rules enclosing)
    (shown : tree.ShowsDefinition rules enclosing owner definition (tree.children id))
    (hsetting : setting = ⟨enclosing.path, Frame.depthOf tree stack⟩)
    (within : Frame.depthOf tree stack ≤ tree.maxDepth)
    (ends : ∀ last, tree.next? last = none → Runs tree (.behind last stack) rest) :
    Runs tree (.behind id stack) (calls ++ rest) := by
  obtain ⟨hbefore, hnil⟩ := runnable enclosing owner _ stack rest inside shown hsetting within ends
  cases hchildren : tree.children id with
  | nil =>
    rw [hnil hchildren, List.nil_append]
    exact ends id (by rw [Tree.next?, hchildren]; rfl)
  | cons next others =>
    have hnext : tree.next? id = some next := by
      rw [Tree.next?, hchildren]
      rfl
    refine .silent (.next hnext) (hbefore next ?_)
    rw [hchildren]
    exact List.mem_cons_self

/-- A definition that yields the calls is one of the alternatives of its rule. -/
theorem runnable_rule {rule : Rule} (found : Rules.find? rules name = some rule)
    (member : definition ∈ rule.definitions)
    (runnable : Runnable tree rules setting (.segments definition) calls) :
    Runnable tree rules setting (.rule name) calls := by
  intro outer frame stack rest inside hsetting within ends
  obtain ⟨rule', found', definitions⟩ := inside.definitions
  obtain rfl := Option.some.inj (found.symm.trans found')
  obtain ⟨id, hid, hshows⟩ := definitions.exists_node member
  obtain ⟨hbefore, _⟩ := runnable _ name [id] (frame :: stack) rest inside hshows hsetting within ends
  exact ⟨id, hid, hbefore id (List.mem_singleton_self _)⟩

/-- One occurrence is followed by the others. -/
theorem runnable_another {count : Nat}
    (enters : Setting.Into tree.maxDepth setting name inner)
    (yields : Runnable tree rules inner (.rule name) first)
    (occur : Runnable tree rules setting (.occurrences name count) others) :
    Runnable tree rules setting (.occurrences name (count + 1)) (first ++ others) := by
  intro enclosing outer optional repeats frame stack rest refers hsetting within leaves behind
  refine ⟨fun h => absurd h (Nat.succ_ne_zero count), fun _ => ?_⟩
  subst hsetting
  obtain ⟨hinner, hdeeper⟩ := refers.of_into enters
  rw [← Tree.depthOf_cons] at hinner hdeeper
  refine ⟨hdeeper within, ?_⟩
  rw [List.append_assoc]
  refine yields outer frame stack (others ++ rest) refers.inside hinner (hdeeper within) ?_
  -- at the end of the occurrence the machine leaves the rule or, if others are to come, opens it again
  intro last hlast
  cases count with
  | zero =>
    obtain ⟨hnil, _⟩ := occur enclosing outer optional repeats frame stack rest refers rfl within
      (by cases repeats <;> simp only [Repeat.Leaves] at leaves ⊢ <;> omega) behind
    rw [hnil rfl, List.nil_append]
    exact .silent (.leave hlast) behind
  | succ count =>
    obtain ⟨allows, hleaves⟩ := (repeats.leaves_succ_iff frame count).1 leaves
    obtain ⟨horigin, hbody⟩ := frame.following_same repeats
    obtain ⟨_, hagain⟩ := occur enclosing outer optional repeats (frame.following repeats) stack rest
      (by rw [horigin, hbody]; exact refers) rfl within hleaves (by rw [horigin]; exact behind)
    obtain ⟨_, alternative, halternative, hruns⟩ := hagain (Nat.succ_pos count)
    rw [hbody] at halternative
    have hrepeats := refers.repeats
    subst hrepeats
    exact .silent (.again hlast allows (hdeeper within) halternative) hruns

/-- Whatever is derived from a setting can be run wherever the setting is. -/
theorem runnable_of_derives {goal : Goal}
    (h : Derives rules (Setting.Into tree.maxDepth) setting goal calls) :
    Runnable tree rules setting goal calls := by
  induction h with
  | rule found member _ ih => exact runnable_rule found member ih
  | done =>
    intro enclosing owner ids stack rest inside shown hsetting within ends
    cases shown
    exact ⟨by simp, fun _ => rfl⟩
  | @symbol setting name params optional rest args calls fits yields ih =>
    intro enclosing owner ids stack rest' inside shown hsetting within ends
    cases shown with
    | symbol label _ further =>
      refine ⟨fun id hid => ?_, fun h => by simp at h⟩
      obtain rfl := List.mem_singleton.1 hid
      refine .call ?_ (runs_behind ih inside further hsetting within ends)
      simp [Accepts, label, Label.isMethod, Label.name, Label.params, fits]
    | declared argument => cases argument
  | @reference setting name optional repeats rest count first others admits occur yields ihOccur ih =>
    intro enclosing owner ids stack rest' inside shown hsetting within ends
    obtain ⟨id, body, outer, rfl, refers, further⟩ := shown.refers inside
    refine ⟨fun other hother => ?_, fun h => by simp at h⟩
    obtain rfl := List.mem_singleton.1 hother
    have hbehind := runs_behind ih inside further hsetting within ends
    cases count with
    | zero => exact absurd admits repeats.not_admits_zero
    | succ count =>
      obtain ⟨_, hoccur⟩ := ihOccur enclosing outer optional repeats ⟨body, other, 1⟩ stack
        (others ++ rest') refers hsetting within ((repeats.admits_succ_iff count).1 admits) hbehind
      obtain ⟨hdepth, alternative, halternative, hruns⟩ := hoccur (Nat.succ_pos count)
      rw [List.append_assoc]
      exact .silent (.descend (Tree.opens?_eq_some_iff.1 refers.opens) hdepth halternative) hruns
  | @skip setting segment rest calls omissible yields ih =>
    intro enclosing owner ids stack rest' inside shown hsetting within ends
    have hskip : ∀ id, (tree.label id).optional = true →
        tree.ShowsDefinition rules enclosing owner rest (tree.children id) →
        Runs tree (.before id stack) (calls ++ rest') := fun id optional further =>
      .silent (.skip optional) (runs_behind ih inside further hsetting within ends)
    cases segment with
    | symbol name params optional =>
      have hoptional : optional = true := by simpa [Segment.isOptional, Segment.isAnchor] using omissible
      cases shown with
      | symbol label _ further =>
        refine ⟨fun id hid => ?_, fun h => by simp at h⟩
        obtain rfl := List.mem_singleton.1 hid
        exact hskip _ (by rw [label]; exact hoptional) further
      | declared argument => cases argument
    | reference name optional repeats =>
      have hoptional : optional = true := by simpa [Segment.isOptional, Segment.isAnchor] using omissible
      obtain ⟨id, body, outer, rfl, refers, further⟩ := shown.refers inside
      refine ⟨fun other hother => ?_, fun h => by simp at h⟩
      obtain rfl := List.mem_singleton.1 hother
      exact hskip _ (refers.optional.trans hoptional) further
    | parameter | value | alternation =>
      cases shown with
      | declared _ further => exact ih enclosing owner ids stack rest' inside further hsetting within ends
  | enough =>
    intro enclosing outer optional repeats frame stack rest refers hsetting within leaves behind
    exact ⟨fun _ => rfl, fun h => absurd h (Nat.lt_irrefl 0)⟩
  | another enters _ _ ihYields ihOccur => exact runnable_another enters ihYields ihOccur

end Plain

end ChainGrammar
