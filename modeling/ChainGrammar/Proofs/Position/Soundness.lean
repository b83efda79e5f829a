import ChainGrammar.Proofs.Position.Machine

/-!
# A walk finds nothing else

Whatever a walk finds, the plain machine gets to by silent moves, in every stack that the nesting of the
item stands for (`Walk.Leads.ground_of_unfolds`).

A nesting that the walk itself opens stands for more and more stacks, since it gets parents as long as
the walk lasts.  What is kept of an item in such a nesting does not speak of its parents: on top of
whatever stack, as long as the depth is the same, the machine gets to the item from one of the
alternatives of the frame (`Walk.Leads`).  What is kept of a parent is that the machine gets to all
these alternatives from there.
-/

set_option autoImplicit false

namespace ChainGrammar

open Plain (State Silent Reaches)

/-- The machine gets to the place: from the ground, for the stacks of a nesting that was there from the
first, and from an alternative of the frame, for a nesting that has been opened since. -/
structure Walk.Leads (tree : Tree) (ground : State → Prop) (walk first : Walk) (nesting : Option Nat)
    (place : List Frame → State) : Prop where
  kept : ∀ stack, first.position.Unfolds nesting stack → ground (place stack)
  opened : ∀ (level : Level) (number : Nat), walk.opened[level]? = some number →
    nesting = some number → ∀ below, Frame.depthOf tree (level.frame :: below) = level.depth →
      ∃ alternative ∈ tree.body level.frame.body,
        Reaches tree (.before alternative (level.frame :: below)) (place (level.frame :: below))

/-- The machine gets to where the task goes on. -/
def Task.Sound (tree : Tree) (ground : State → Prop) (walk first : Walk) : Task → Prop
  | .enter item => walk.Leads tree ground first item.nesting (.before item.node)
  | .descend frame parent => (walk.levelOn tree frame parent).depth ≤ tree.maxDepth →
      ∀ alternative ∈ tree.body frame.body,
        walk.Leads tree ground first parent fun below => .before alternative (frame :: below)
  | .advance item => walk.Leads tree ground first item.nesting (.behind item.node)
  | .resume _ _ => True

namespace Walk

/-- What a walk sets out from: a ground that silent moves do not leave, and a table of nestings. -/
structure Footing (tree : Tree) (ground : State → Prop) (first : Walk) : Prop where
  stable : ∀ before behind, ground before → Silent tree before behind → ground behind
  table : Nesting.Table tree first.nestings first.nextNesting

/-- The machine gets to wherever a walk has been and to wherever it still goes. -/
structure Sound (tree : Tree) (ground : State → Prop) (walk first : Walk) (agenda : List Task) :
    Prop where
  /-- The nestings that were there from the first stay as they are. -/
  kept : ∀ (number : Nat) (nesting : Nesting), first.nestings[number]? = some nesting →
    walk.nestings[number]? = some nesting ∧ ∀ level : Level, walk.opened[level]? ≠ some number
  /-- All others have been opened on the walk. -/
  new : ∀ (number : Nat) (nesting : Nesting), walk.nestings[number]? = some nesting →
    first.nestings[number]? = none → walk.opened[nesting.toLevel]? = some number
  parents : ∀ (level : Level) (number : Nat), walk.opened[level]? = some number →
    ∀ parent ∈ walk.parents number, ∀ alternative ∈ tree.body level.frame.body,
      walk.Leads tree ground first parent fun below => .before alternative (level.frame :: below)
  entered : ∀ item ∈ walk.entered, walk.Leads tree ground first item.nesting (.before item.node)
  finished : ∀ number ∈ walk.finished, ∃ node, tree.next? node = none ∧
    walk.Leads tree ground first (some number) (.behind node)
  complete : walk.complete = true → ground .complete
  agenda : ∀ task ∈ agenda, task.Sound tree ground walk first

section

variable {tree : Tree} {ground : State → Prop} {first walk after : Walk} {task : Task}
  {agenda rest led : List Task} {nesting : Option Nat} {place other : List Frame → State}

/-! ## Getting further -/

/-- Silent moves stay on the ground. -/
theorem Footing.reaches (footing : Footing tree ground first) {before behind : State}
    (h : ground before) (moves : Reaches tree before behind) : ground behind := by
  induction moves with
  | refl => exact h
  | tail _ move ih => exact footing.stable _ _ ih move

/-- The levels after a step. -/
theorem Handles.opened_or (h : Handles tree walk task after led) {level : Level} {number : Nat}
    (found : after.opened[level]? = some number) :
    walk.opened[level]? = some number ∨ number = walk.nextNesting := by
  cases h with
  | opens =>
    rw [opened_openNesting] at found
    split at found
    · exact .inr (Option.some.inj found).symm
    · exact .inl found
  | _ => exact .inl found

/-- What the machine gets to, it gets to after a step. -/
theorem Leads.step (leads : walk.Leads tree ground first nesting place)
    (h : Handles tree walk task after led) (tidy : walk.Tidy tree agenda)
    (present : Nesting.Present walk.nestings nesting) :
    after.Leads tree ground first nesting place where
  kept := leads.kept
  opened level number found hnesting := by
    rcases h.opened_or found with found | rfl
    · exact leads.opened level number found hnesting
    · exact absurd rfl (tidy.ne_nextNesting (present _ hnesting))

/-- Soundness of a task lasts. -/
theorem Extends.taskSound (extends_ : walk.Extends after) (h : Handles tree walk task after led)
    (tidy : walk.Tidy tree agenda) {pending : Task} (fits : pending.Fits tree walk)
    (sound : pending.Sound tree ground walk first) : pending.Sound tree ground after first := by
  cases pending with
  | enter item => exact Leads.step sound h tidy fits.present
  | descend frame parent =>
    intro within alternative halternative
    rw [extends_.levelOn_eq fits.2] at within
    exact (sound within alternative halternative).step h tidy fits.2
  | advance item => exact Leads.step sound h tidy fits.present
  | resume number parent => trivial

/-- A nesting that was there from the first has the depth that it had then. -/
theorem Sound.depthOf_eq (sound : walk.Sound tree ground first agenda)
    (table : Nesting.Table tree first.nestings first.nextNesting) {stack : List Frame}
    (h : first.position.Unfolds nesting stack) :
    Frame.depthOf tree stack = walk.depth nesting := by
  rw [h.depthOf_eq table, depth_eq_depthIn]
  cases nesting with
  | none => rfl
  | some number =>
    obtain ⟨found, hfound⟩ := exists_of_mem (h.present number rfl)
    simp only [position] at hfound
    simp only [Nesting.depthIn, position, hfound, (sound.kept number found hfound).1]

/-- A nesting that has been opened has the depth of its level. -/
theorem Tidy.depth_of_opened (tidy : walk.Tidy tree agenda) {level : Level} {number : Nat}
    (found : walk.opened[level]? = some number) : walk.depth (some number) = level.depth := by
  obtain ⟨_, nesting, hnesting, rfl⟩ := tidy.opened level number found
  rw [depth, hnesting]
  rfl

/-- From where the machine gets to, it gets to wherever it can go from there. -/
theorem Leads.moves (leads : walk.Leads tree ground first nesting place)
    (footing : Footing tree ground first)
    (tidy : walk.Tidy tree agenda) (sound : walk.Sound tree ground first agenda)
    (further : ∀ stack, Frame.depthOf tree stack = walk.depth nesting →
      Reaches tree (place stack) (other stack)) :
    walk.Leads tree ground first nesting other where
  kept stack h :=
    footing.reaches (leads.kept stack h) (further stack (sound.depthOf_eq footing.table h))
  opened level number found hnesting below hdepth := by
    obtain ⟨alternative, halternative, hreaches⟩ := leads.opened level number found hnesting below hdepth
    refine ⟨alternative, halternative, hreaches.trans (further _ ?_)⟩
    rw [hdepth, hnesting, tidy.depth_of_opened found]

/-- In a nesting that has been opened the machine gets to all alternatives of the frame. -/
theorem Sound.leads_alternative (tidy : walk.Tidy tree agenda)
    (sound : walk.Sound tree ground first agenda) {level : Level} {number alternative : Nat}
    (found : walk.opened[level]? = some number)
    (halternative : alternative ∈ tree.body level.frame.body) :
    walk.Leads tree ground first (some number) (.before alternative) where
  kept stack h := by
    obtain ⟨nesting, hnesting⟩ := exists_of_mem (h.present number rfl)
    exact absurd found ((sound.kept number nesting hnesting).2 level)
  opened other number' hother hnumber below hdepth := by
    obtain rfl := Option.some.inj hnumber
    obtain rfl := tidy.level_unique found hother
    exact ⟨alternative, halternative, .refl⟩

/-- From the parents of a finished nesting the machine gets to the end of the frame. -/
theorem Sound.leads_last
    (footing : Footing tree ground first)
    (tidy : walk.Tidy tree agenda) (sound : walk.Sound tree ground first agenda) {number : Nat}
    {nesting : Nesting} (found : walk.nestings[number]? = some nesting)
    (done : number ∈ walk.finished) {parent : Option Nat} (hparent : parent ∈ nesting.parents) :
    ∃ node, tree.next? node = none ∧
      walk.Leads tree ground first parent fun below => .behind node (nesting.frame :: below) := by
  obtain ⟨node, last, leads⟩ := sound.finished number done
  refine ⟨node, last, ?_⟩
  cases hfirst : first.nestings[number]? with
  | some nesting' =>
    obtain rfl := Option.some.inj (found.symm.trans (sound.kept number nesting' hfirst).1)
    refine ⟨fun stack h => leads.kept _ (.nested hfirst hparent h), ?_⟩
    intro level number' hopened hnumber
    have hpresent := footing.table.present number nesting hfirst parent hparent number' hnumber
    obtain ⟨other, hother⟩ := exists_of_mem hpresent
    exact absurd hopened ((sound.kept number' other hother).2 level)
  | none =>
    -- the end of the frame is reached from its alternatives on any stack, and these from the parent
    have hopened := sound.new number nesting found hfirst
    have hparents : parent ∈ walk.parents number := parents_of_getElem? found ▸ hparent
    have halternatives := sound.parents nesting.toLevel number hopened parent hparents
    have hdepth : ∀ stack, Frame.depthOf tree stack = walk.depth parent →
        Frame.depthOf tree (nesting.frame :: stack) = nesting.depth := by
      intro stack hstack
      rw [Frame.depthOf_cons, hstack, depth_eq_depthIn,
        tidy.table.depth number nesting found parent hparent]
    constructor
    · intro stack h
      obtain ⟨alternative, halternative, hreaches⟩ := leads.opened nesting.toLevel number hopened rfl
        stack (hdepth stack (sound.depthOf_eq footing.table h))
      exact footing.reaches ((halternatives alternative halternative).kept stack h) hreaches
    · intro level number' hother hnumber below hbelow
      obtain ⟨alternative, halternative, hreaches⟩ := leads.opened nesting.toLevel number hopened rfl
        (level.frame :: below)
        (hdepth _ (by rw [hbelow, hnumber, tidy.depth_of_opened hother]))
      obtain ⟨outer, houter, hinto⟩ := (halternatives alternative halternative).opened level number'
        hother hnumber below hbelow
      exact ⟨outer, houter, hinto.trans hreaches⟩

/-! ## The invariant -/

/-- The tasks that entering an item leads to. -/
theorem Sound.behind (footing : Footing tree ground first)
    (tidy : walk.Tidy tree agenda) (sound : walk.Sound tree ground first agenda) {item : Item}
    (leads : walk.Leads tree ground first item.nesting (.before item.node)) :
    ∀ pending ∈ behind tree item, pending.Sound tree ground walk first := by
  intro pending hpending
  rcases List.mem_append.1 hpending with hpending | hpending
  · obtain ⟨body, hbody, rfl⟩ := Option.map_eq_some_iff.1 (Option.mem_toList.1 hpending)
    intro within alternative halternative
    refine leads.moves footing tidy sound fun stack hstack => .single ?_
    refine .descend (Tree.opens?_eq_some_iff.1 hbody) ?_ halternative
    rw [Frame.depthOf_cons, hstack]
    exact within
  · split at hpending
    · rename_i omissible
      obtain rfl := List.mem_singleton.1 hpending
      exact leads.moves footing tidy sound fun stack _ => .single (.skip omissible)
    · cases hpending

/-- The tasks that leaving a finished nesting leads to. -/
theorem Sound.left (footing : Footing tree ground first)
    (tidy : walk.Tidy tree agenda) (sound : walk.Sound tree ground first agenda) {number : Nat}
    {nesting : Nesting} (found : walk.nestings[number]? = some nesting)
    (done : number ∈ walk.finished) {parent : Option Nat} (hparent : parent ∈ nesting.parents) :
    ∀ pending ∈ left tree nesting.frame parent, pending.Sound tree ground walk first := by
  obtain ⟨node, last, leads⟩ := sound.leads_last footing tidy found done hparent
  obtain ⟨horigin, hbody⟩ := nesting.frame.following_same (tree.label nesting.frame.origin).repeats
  intro pending hpending
  rcases List.mem_append.1 hpending with hpending | hpending
  · split at hpending
    · rename_i allows
      obtain rfl := List.mem_singleton.1 hpending
      intro within alternative halternative
      refine leads.moves footing tidy sound fun stack hstack => .single ?_
      refine .again last allows ?_ (hbody ▸ halternative)
      rw [levelOn, horigin] at within
      rw [Frame.depthOf_cons, hstack]
      exact within
    · cases hpending
  · obtain rfl := List.mem_singleton.1 hpending
    exact leads.moves footing tidy sound fun stack _ => .single (.leave last)

/-- The nestings that were there from the first are there after a step. -/
theorem Sound.kept_step (tidy : walk.Tidy tree agenda) (sound : walk.Sound tree ground first agenda)
    (h : Handles tree walk task after led) {number : Nat} {nesting : Nesting}
    (found : first.nestings[number]? = some nesting) :
    after.nestings[number]? = some nesting ∧
      ∀ level : Level, after.opened[level]? ≠ some number := by
  obtain ⟨hnesting, hopened⟩ := sound.kept number nesting found
  cases h with
  | opens =>
    have hne := tidy.ne_nextNesting (mem_of_getElem? hnesting)
    rw [getElem?_openNesting, if_neg hne]
    refine ⟨hnesting, fun level => ?_⟩
    rw [opened_openNesting]
    split
    · exact fun heq => hne (Option.some.inj heq).symm
    · exact hopened level
  | joins _ isOpen =>
    refine ⟨?_, hopened⟩
    rw [getElem?_addParent, if_neg, hnesting]
    rintro rfl
    exact hopened _ isOpen
  | _ => exact ⟨hnesting, hopened⟩

/-- The other nestings have been opened after a step. -/
theorem Sound.new_step (sound : walk.Sound tree ground first agenda)
    (h : Handles tree walk task after led) {number : Nat} {nesting : Nesting}
    (found : after.nestings[number]? = some nesting) (missing : first.nestings[number]? = none) :
    after.opened[nesting.toLevel]? = some number := by
  cases h with
  | opens within fresh =>
    rw [getElem?_openNesting] at found
    rw [opened_openNesting]
    split at found
    · rename_i hnumber
      obtain rfl := Option.some.inj found
      rw [if_pos rfl, hnumber]
    · have hopened := sound.new number nesting found missing
      rw [if_neg, hopened]
      intro hlevel
      rw [hlevel, fresh] at hopened
      cases hopened
  | joins =>
    obtain ⟨earlier, hearlier, hlevel, _⟩ := earlier_of_addParent found
    rw [hlevel]
    exact sound.new number earlier hearlier missing
  | _ => exact sound.new number nesting found missing

/-- From the parents of an open nesting the machine gets to all alternatives of the frame. -/
theorem Sound.parents_step (tidy : walk.Tidy tree (task :: rest))
    (sound : walk.Sound tree ground first (task :: rest)) (h : Handles tree walk task after led)
    {level : Level} {number alternative : Nat} (isOpen : after.opened[level]? = some number)
    {parent : Option Nat} (hparent : parent ∈ after.parents number)
    (halternative : alternative ∈ tree.body level.frame.body) :
    after.Leads tree ground first parent fun below => .before alternative (level.frame :: below) := by
  have htask : task.Sound tree ground walk first := sound.agenda task List.mem_cons_self
  have hfits : task.Fits tree walk := tidy.agenda task List.mem_cons_self
  have hearlier : walk.opened[level]? = some number → parent ∈ walk.parents number →
      after.Leads tree ground first parent
        fun below => .before alternative (level.frame :: below) := by
    intro isOpen hparent
    obtain ⟨nesting, found, hmem⟩ := getElem?_of_mem_parents hparent
    exact (sound.parents level number isOpen parent hparent alternative halternative).step h tidy
      (tidy.table.present number nesting found parent hmem)
  have handles := h
  cases h with
  | opens within =>
    rw [opened_openNesting] at isOpen
    split at isOpen
    · rename_i hsame
      obtain rfl := Option.some.inj isOpen
      obtain rfl := hsame
      rw [parents_openNesting, if_pos rfl, List.mem_singleton] at hparent
      obtain rfl := hparent
      exact (htask within alternative halternative).step handles tidy hfits.2
    · obtain ⟨_, nesting, found, _⟩ := tidy.opened level _ isOpen
      rw [parents_openNesting, if_neg (tidy.ne_nextNesting (mem_of_getElem? found))] at hparent
      exact hearlier isOpen hparent
  | joins within added =>
    rcases mem_parents_of_addParent hparent with hparent | ⟨rfl, rfl⟩
    · exact hearlier isOpen hparent
    · have hframe : level.frame = _ := congrArg Level.frame (tidy.level_unique isOpen added)
      rw [hframe] at halternative ⊢
      exact (htask within alternative halternative).step handles tidy hfits.2
  | _ => exact hearlier isOpen hparent

/-- The machine gets to the items entered after a step. -/
theorem Sound.entered_step (tidy : walk.Tidy tree (task :: rest))
    (sound : walk.Sound tree ground first (task :: rest)) (h : Handles tree walk task after led)
    {item : Item} (hitem : item ∈ after.entered) :
    after.Leads tree ground first item.nesting (.before item.node) := by
  have htask : task.Sound tree ground walk first := sound.agenda task List.mem_cons_self
  have hfits : task.Fits tree walk := tidy.agenda task List.mem_cons_self
  have hearlier : item ∈ walk.entered →
      after.Leads tree ground first item.nesting (.before item.node) := fun hitem =>
    (sound.entered item hitem).step h tidy (tidy.entered item hitem).present
  have handles := h
  cases h with
  | sees =>
    rcases (mem_entered_see _ item).1 hitem with rfl | hitem
    · exact Leads.step htask handles tidy hfits.present
    · exact hearlier hitem
  | _ => exact hearlier hitem

/-- The machine gets to the end of the nestings finished after a step. -/
theorem Sound.finished_step (tidy : walk.Tidy tree (task :: rest))
    (sound : walk.Sound tree ground first (task :: rest)) (h : Handles tree walk task after led)
    {number : Nat} (hnumber : number ∈ after.finished) :
    ∃ node, tree.next? node = none ∧
      after.Leads tree ground first (some number) (.behind node) := by
  have htask : task.Sound tree ground walk first := sound.agenda task List.mem_cons_self
  have hfits : task.Fits tree walk := tidy.agenda task List.mem_cons_self
  have hearlier : number ∈ walk.finished → ∃ node, tree.next? node = none ∧
      after.Leads tree ground first (some number) (.behind node) := by
    intro hnumber
    obtain ⟨node, last, leads⟩ := sound.finished number hnumber
    exact ⟨node, last, leads.step h tidy fun other hother =>
      Option.some.inj hother ▸ tidy.finished number hnumber⟩
  have handles := h
  cases h with
  | @finishes node _ last =>
    rcases (mem_finished_finish _ number).1 hnumber with rfl | hnumber
    · exact ⟨node, last, Leads.step htask handles tidy hfits.present⟩
    · exact hearlier hnumber
  | _ => exact hearlier hnumber

/-- What is known of the walk after a step, but for the tasks that the step leads to. -/
theorem Sound.step_rest (footing : Footing tree ground first) (tidy : walk.Tidy tree (task :: rest))
    (sound : walk.Sound tree ground first (task :: rest)) (h : Handles tree walk task after led) :
    after.Sound tree ground first rest where
  kept _ _ := sound.kept_step tidy h
  new _ _ := sound.new_step h
  parents _ _ isOpen _ hparent _ := sound.parents_step tidy h isOpen hparent
  entered _ := sound.entered_step tidy h
  finished _ := sound.finished_step tidy h
  complete := by
    have htask : task.Sound tree ground walk first := sound.agenda task List.mem_cons_self
    cases h with
    | completes last =>
      exact fun _ => footing.stable _ _ (htask.kept [] .top) (.finish last)
    | _ => exact sound.complete
  agenda pending hpending :=
    (h.extends tidy.fresh).taskSound h tidy (tidy.agenda pending (List.mem_cons_of_mem _ hpending))
      (sound.agenda pending (List.mem_cons_of_mem _ hpending))

/-- The machine gets to where the tasks go on that a step leads to. -/
theorem Sound.sound_led (footing : Footing tree ground first) (closed : tree.Closed)
    (tidy : walk.Tidy tree (task :: rest)) (sound : walk.Sound tree ground first (task :: rest))
    (h : Handles tree walk task after led) :
    ∀ pending ∈ led, pending.Sound tree ground after first := by
  have htask : task.Sound tree ground walk first := sound.agenda task List.mem_cons_self
  have hfits : task.Fits tree walk := tidy.agenda task List.mem_cons_self
  have tidyAfter := tidy.step closed h
  have soundAfter := sound.step_rest footing tidy h
  have extends_ := h.extends tidy.fresh
  have handles := h
  intro pending hpending
  cases h with
  | known | tooDeep | ended | lost | completes => cases hpending
  | sees =>
    exact soundAfter.behind footing tidyAfter.tail (Leads.step htask handles tidy hfits.present)
      pending hpending
  | opens =>
    obtain ⟨alternative, halternative, rfl⟩ := List.mem_map.1 hpending
    exact soundAfter.leads_alternative tidyAfter.tail
      ((opened_openNesting _ _ _).trans (if_pos rfl)) halternative
  | shares _ isOpen =>
    obtain ⟨alternative, halternative, rfl⟩ := List.mem_map.1 hpending
    exact sound.leads_alternative tidy isOpen halternative
  | joins _ isOpen =>
    rcases List.mem_append.1 hpending with hpending | hpending
    · split at hpending
      · obtain rfl := List.mem_singleton.1 hpending
        trivial
      · cases hpending
    · obtain ⟨alternative, halternative, rfl⟩ := List.mem_map.1 hpending
      exact soundAfter.leads_alternative tidyAfter.tail isOpen halternative
  | goesOn found =>
    obtain rfl := List.mem_singleton.1 hpending
    exact Leads.moves htask footing tidy sound fun stack _ => .single (.next found)
  | finishes =>
    obtain ⟨parent, hparent, rfl⟩ := List.mem_map.1 hpending
    trivial
  | resumes found =>
    exact sound.left footing tidy found hfits.1 (parents_of_getElem? found ▸ hfits.2) pending hpending

/-- Handling a task leaves a walk sound. -/
theorem Sound.step (footing : Footing tree ground first) (closed : tree.Closed)
    (tidy : walk.Tidy tree (task :: rest)) (sound : walk.Sound tree ground first (task :: rest))
    (h : Handles tree walk task after led) : after.Sound tree ground first (led ++ rest) := by
  have soundAfter := sound.step_rest footing tidy h
  refine { soundAfter with agenda := fun pending hpending => ?_ }
  rcases List.mem_append.1 hpending with hpending | hpending
  · exact sound.sound_led footing closed tidy h pending hpending
  · exact soundAfter.agenda pending hpending

/-! ## The stacks of a walk -/

/-- What the walk knows of a nesting holds of all its stacks: it was there from the first, or the
machine gets to the alternatives of its frame. -/
theorem Sound.stands
    (footing : Footing tree ground first) (tidy : walk.Tidy tree agenda)
    (sound : walk.Sound tree ground first agenda) {stack : List Frame}
    (h : walk.position.Unfolds nesting stack) :
    first.position.Unfolds nesting stack ∨
      ∃ (level : Level) (number : Nat) (below : List Frame), walk.opened[level]? = some number ∧
        nesting = some number ∧ stack = level.frame :: below ∧
        Frame.depthOf tree stack = level.depth ∧
        ∀ alternative ∈ tree.body level.frame.body, ground (.before alternative stack) := by
  -- the stacks of a nesting are its frame on those of its parents, down to a nesting that was there
  -- from the first
  induction h with
  | top => exact .inl .top
  | @nested number nesting parent below found member rest ih =>
    cases hfirst : first.nestings[number]? with
    | some nesting' =>
      obtain rfl := Option.some.inj (found.symm.trans (sound.kept number nesting' hfirst).1)
      rcases ih with ih | ⟨level, number', _, hopened, hnumber, _⟩
      · exact .inl (.nested hfirst member ih)
      · have hpresent := footing.table.present number nesting hfirst parent member number' hnumber
        obtain ⟨other, hother⟩ := exists_of_mem hpresent
        exact absurd hopened ((sound.kept number' other hother).2 level)
    | none =>
      have hopened := sound.new number nesting found hfirst
      have hparents : parent ∈ walk.parents number := parents_of_getElem? found ▸ member
      have hunfolds : walk.position.Unfolds (some number) (nesting.frame :: below) :=
        .nested found member rest
      refine .inr ⟨nesting.toLevel, number, below, hopened, rfl, rfl, ?_, fun alternative ha => ?_⟩
      · rw [hunfolds.depthOf_eq tidy.table, ← tidy.depth_of_opened hopened, depth_eq_depthIn]
        rfl
      · have leads := sound.parents _ number hopened parent hparents alternative ha
        rcases ih with ih | ⟨level, number', below', hopened', hnumber, rfl, hdepth, hground⟩
        · exact leads.kept below ih
        · obtain ⟨outer, houter, hreaches⟩ := leads.opened level number' hopened' hnumber below' hdepth
          exact footing.reaches (hground outer houter) hreaches

/-- Where a walk leads, the machine gets to in every stack of the nesting. -/
theorem Leads.ground_of_unfolds (leads : walk.Leads tree ground first nesting place)
    (footing : Footing tree ground first) (tidy : walk.Tidy tree agenda)
    (sound : walk.Sound tree ground first agenda) {stack : List Frame}
    (h : walk.position.Unfolds nesting stack) : ground (place stack) := by
  rcases sound.stands footing tidy h with h | ⟨level, number, below, hopened, hnesting, rfl,
    hdepth, hground⟩
  · exact leads.kept stack h
  · obtain ⟨alternative, halternative, hreaches⟩ := leads.opened level number hopened hnesting below
      hdepth
    exact footing.reaches (hground alternative halternative) hreaches

end

end Walk

end ChainGrammar
