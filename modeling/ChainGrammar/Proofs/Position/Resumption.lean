import ChainGrammar.Proofs.Position.Stacks

/-!
# Every continuation is taken once

A finished nesting is resumed for each of its parents, and it may get parents after it has been finished, even while it
is being resumed for others.  Those that it has when it is finished are put on the agenda together, and one that comes
later is put there by itself.  On every walk a finished nesting is nevertheless resumed exactly once for each parent
that it has in the end, and no nesting is resumed before it has been finished (`Walk.resumes_once`).

The proof keeps an account (`Walk.Accounts`).  The tables of a walk say how often a nesting is to be resumed for a
parent (`Walk.due`); this is how often it has been resumed already and is still to be resumed by the agenda, together.
A step leads to as many resumptions as it makes due (`Walk.Handles.due_eq`), in whatever order the tasks come.
-/

set_option autoImplicit false

namespace ChainGrammar

namespace Walk

/-- All tasks that are handled on a walk, in order. -/
def handled (tree : Tree) (walk : Walk) (agenda : List Task) : List Task :=
  handledFor tree (walk.budget tree agenda) walk agenda

/-- The walk after tasks have been handled in turn, whatever they lead to. -/
def performAll (tree : Tree) (walk : Walk) (tasks : List Task) : Walk :=
  tasks.foldl (fun walk task => (walk.perform tree task).1) walk

/-- One of the tasks finishes the nesting, by going on behind the last node of a definition. -/
def Finishes (tree : Tree) (tasks : List Task) (number : Nat) : Prop :=
  ∃ node, tree.next? node = none ∧ .advance ⟨node, some number⟩ ∈ tasks

/-- How often a nesting is to be resumed for another: as often as this is one of its parents, once it is finished. -/
def due (walk : Walk) (number : Nat) (parent : Option Nat) : Nat :=
  if number ∈ walk.finished then (walk.parents number).count parent else 0

variable {tree : Tree} {walk after first : Walk} {task : Task} {agenda done rest led : List Task} {number : Nat}
  {parent : Option Nat}

/-! ## The tasks of a walk -/

theorem performAll_concat (h : Handles tree walk task after led) (reached : first.performAll tree done = walk) :
    first.performAll tree (done ++ [task]) = after := by
  calc first.performAll tree (done ++ [task])
      = ((first.performAll tree done).perform tree task).1 := List.foldl_append
    _ = (walk.perform tree task).1 := by rw [reached]
    _ = after := ((perform_handles tree walk task).unique h).1

theorem finishes_append {before behind : List Task} :
    Finishes tree (before ++ behind) number ↔ Finishes tree before number ∨ Finishes tree behind number := by
  simp only [Finishes, List.mem_append, and_or_left, exists_or]

/-- A nesting is among the finished ones after a step if it was before, or if the step finishes it. -/
theorem Handles.mem_finished_iff (h : Handles tree walk task after led) :
    number ∈ after.finished ↔ number ∈ walk.finished ∨ Finishes tree [task] number := by
  cases h with
  | goesOn found =>
    refine (or_iff_left ?_).symm
    rintro ⟨node, last, hmem⟩
    obtain rfl := Task.advance.inj (List.mem_singleton.1 hmem)
    rw [last] at found
    cases found
  | ended last done => simp_all [Finishes]
  | finishes last => simp [Finishes, mem_finished_finish, last, or_comm]
  | _ => simp [Finishes, see, openNesting, addParent]

/-! ## What is due -/

theorem due_of_mem (finished : number ∈ walk.finished) :
    walk.due number parent = (walk.parents number).count parent :=
  if_pos finished

theorem due_of_not_mem (unfinished : number ∉ walk.finished) : walk.due number parent = 0 :=
  if_neg unfinished

/-- Nothing becomes due by opening a nesting, which is not a finished one. -/
theorem Tidy.due_openNesting (tidy : walk.Tidy tree agenda) (level : Level) (below : Option Nat) :
    (walk.openNesting level below).due number parent = walk.due number parent := by
  have hsame : number ∈ (walk.openNesting level below).finished ↔ number ∈ walk.finished := Iff.rfl
  by_cases finished : number ∈ walk.finished
  · have hold := tidy.ne_nextNesting (tidy.finished number finished)
    rw [due_of_mem finished, due_of_mem (hsame.2 finished), parents_openNesting, if_neg hold]
  · rw [due_of_not_mem finished, due_of_not_mem (mt hsame.1 finished)]

/-- A further parent of a finished nesting becomes due. -/
theorem due_addParent {added : Nat} (present : added ∈ walk.nestings) (below : Option Nat) :
    (walk.addParent added below).due number parent = walk.due number parent +
      (if added ∈ walk.finished then [Task.resume added below] else []).count (.resume number parent) := by
  have hsame : number ∈ (walk.addParent added below).finished ↔ number ∈ walk.finished := Iff.rfl
  by_cases hadded : number = added
  · subst hadded
    by_cases finished : number ∈ walk.finished
    · rw [due_of_mem finished, due_of_mem (hsame.2 finished), parents_addParent, if_pos ⟨rfl, present⟩,
        if_pos finished, List.count_append]
      simp [List.count_singleton]
    · rw [due_of_not_mem finished, due_of_not_mem (mt hsame.1 finished), if_neg finished]
      rfl
  · have hparents : (walk.addParent added below).parents number = walk.parents number := by
      rw [parents_addParent, if_neg fun h => hadded h.1, List.append_nil]
    have hnone : (if added ∈ walk.finished then [Task.resume added below] else []).count
        (.resume number parent) = 0 := by
      split <;> simp [Ne.symm hadded]
    rw [due, due, hparents, hnone]
    rfl

/-- With a nesting that is finished all its parents become due. -/
theorem due_finish {ended : Nat} (fresh : ended ∉ walk.finished) :
    (walk.finish ended).due number parent = walk.due number parent +
      ((walk.parents ended).map (Task.resume ended)).count (.resume number parent) := by
  by_cases hsame : number = ended
  · subst hsame
    have hinjective : Function.Injective (Task.resume number) := fun _ _ h => (Task.resume.inj h).2
    rw [due_of_mem ((mem_finished_finish number number).2 (.inl rfl)), due_of_not_mem fresh, Nat.zero_add,
      List.count_map_of_injective _ _ hinjective]
    rfl
  · have hnone : ((walk.parents ended).map (Task.resume ended)).count (.resume number parent) = 0 := by
      simp [List.count_eq_zero, Ne.symm hsame]
    have hiff : number ∈ (walk.finish ended).finished ↔ number ∈ walk.finished :=
      (mem_finished_finish ended number).trans (or_iff_right hsame)
    rw [hnone, Nat.add_zero]
    exact if_congr hiff rfl rfl

theorem count_resume_alternatives (tree : Tree) (frame : Frame) (opened : Nat) :
    (alternatives tree frame opened).count (.resume number parent) = 0 := by
  simp [alternatives, List.count_eq_zero]

theorem count_resume_behind (tree : Tree) (item : Item) :
    (behind tree item).count (.resume number parent) = 0 := by
  simp [behind, List.count_eq_zero]

theorem count_resume_left (tree : Tree) (frame : Frame) (below : Option Nat) :
    (left tree frame below).count (.resume number parent) = 0 := by
  simp [left, List.count_eq_zero]

/-- A step leads to as many resumptions as it makes due. -/
theorem Handles.due_eq (tidy : walk.Tidy tree (task :: rest)) (h : Handles tree walk task after led) :
    after.due number parent = walk.due number parent + led.count (.resume number parent) := by
  cases h with
  | known | tooDeep | completes | ended | lost => rfl
  | sees =>
    rw [count_resume_behind]
    rfl
  | opens => rw [count_resume_alternatives, tidy.due_openNesting, Nat.add_zero]
  | shares => rw [count_resume_alternatives, Nat.add_zero]
  | joins _ isOpen =>
    obtain ⟨_, nesting, found, _⟩ := tidy.opened _ _ isOpen
    rw [due_addParent (mem_of_getElem? found), List.count_append, count_resume_alternatives, Nat.add_zero]
  | goesOn => simp
  | finishes _ fresh => exact due_finish fresh
  | resumes => rw [count_resume_left, Nat.add_zero]

/-! ## The account of a walk -/

/-- The tasks handled so far have led to the walk, and with those on the agenda they account for what is due. -/
structure Accounts (tree : Tree) (first : Walk) (done : List Task) (walk : Walk) (agenda : List Task) : Prop where
  tidy : walk.Tidy tree agenda
  reached : first.performAll tree done = walk
  finished : ∀ number, number ∈ walk.finished ↔ Finishes tree done number
  due : ∀ number parent, (done ++ agenda).count (.resume number parent) = walk.due number parent
  /-- When a nesting was resumed, it had been finished, and it had the parent. -/
  order : ∀ before behind number parent, done = before ++ .resume number parent :: behind →
    Finishes tree before number ∧ parent ∈ (first.performAll tree before).parents number

/-- The account is kept by every step. -/
theorem Accounts.step (closed : tree.Closed) (accounts : Accounts tree first done walk (task :: rest))
    (h : Handles tree walk task after led) : Accounts tree first (done ++ [task]) after (led ++ rest) where
  tidy := accounts.tidy.step closed h
  reached := performAll_concat h accounts.reached
  finished number := by rw [h.mem_finished_iff, accounts.finished, finishes_append]
  due number parent := by
    have hdue := accounts.due number parent
    rw [h.due_eq accounts.tidy, ← hdue]
    simp only [List.count_append, List.count_cons, List.count_nil]
    omega
  order before behind number parent hdone := by
    rcases List.eq_nil_or_concat' behind with rfl | ⟨earlier, last, rfl⟩
    · -- the task that is handled now was on the agenda of a tidy walk
      obtain ⟨rfl, htask⟩ := List.append_inj' hdone rfl
      obtain rfl := List.singleton_inj.1 htask
      have fits : Task.Fits tree walk (.resume number parent) := accounts.tidy.agenda _ List.mem_cons_self
      rw [accounts.reached]
      exact ⟨(accounts.finished number).1 fits.1, fits.2⟩
    · rw [← List.cons_append, ← List.append_assoc] at hdone
      exact accounts.order before earlier number parent (List.append_inj' hdone rfl).1

/-- A walk that sets out has nothing to account for. -/
theorem SetsOut.accounts (sets : SetsOut tree first agenda) : Accounts tree first [] first agenda := by
  obtain ⟨_, _, _, _, hfinished⟩ := sets.tables
  refine ⟨sets.tidy, rfl, fun number => ?_, fun number parent => ?_, fun before behind number parent h => ?_⟩
  · simp [hfinished, Finishes]
  · rw [due_of_not_mem (by simp [hfinished]), List.nil_append, List.count_eq_zero]
    intro hmem
    obtain ⟨item, _, heq | heq⟩ := sets.items _ hmem
    · cases heq
    · cases heq
  · simp at h

/-- When nothing is left on the agenda, all that is due has been done. -/
theorem Accounts.count_eq (accounts : Accounts tree first done walk []) (number : Nat) (parent : Option Nat) :
    done.count (.resume number parent) = walk.due number parent := by
  rw [← accounts.due, List.append_nil]

/-- What has been finished has been resumed once for each of its parents. -/
theorem Accounts.once (accounts : Accounts tree first done walk []) (finishes : Finishes tree done number) :
    ∃ nesting : Nesting, walk.nestings[number]? = some nesting ∧ nesting.parents.Nodup ∧
      ∀ parent ∈ nesting.parents, done.count (.resume number parent) = 1 := by
  have finished := (accounts.finished number).2 finishes
  obtain ⟨nesting, found⟩ := exists_of_mem (accounts.tidy.finished number finished)
  have hdistinct := accounts.tidy.table.distinct number nesting found
  refine ⟨nesting, found, hdistinct, fun parent hparent => ?_⟩
  rw [accounts.count_eq, due_of_mem finished, parents_of_getElem? found]
  exact List.count_eq_one_of_mem hdistinct hparent

/-- A nesting has been resumed for its parents only. -/
theorem Accounts.mem_parents (accounts : Accounts tree first done walk []) (h : .resume number parent ∈ done) :
    parent ∈ walk.parents number := by
  have hdue : 0 < walk.due number parent := by
    rw [← accounts.count_eq]
    exact List.count_pos_iff.2 h
  by_cases finished : number ∈ walk.finished
  · rw [due_of_mem finished] at hdue
    exact List.count_pos_iff.1 hdue
  · rw [due_of_not_mem finished] at hdue
    exact absurd hdue (Nat.lt_irrefl 0)

/-- A walk to a position resumes what it finishes, once for each parent, and nothing else. -/
structure ResumesOnce (tree : Tree) (first : Walk) (agenda : List Task) (position : Position) : Prop where
  /-- The walk comes to its end, and the tasks that are handled lead there. -/
  ends : runFor tree (first.budget tree agenda) first agenda =
    (first.performAll tree (first.handled tree agenda), [])
  leads : (first.performAll tree (first.handled tree agenda)).position = position
  once : ∀ number, Finishes tree (first.handled tree agenda) number →
    ∃ nesting : Nesting, position.nestings[number]? = some nesting ∧ nesting.parents.Nodup ∧
      ∀ parent ∈ nesting.parents, (first.handled tree agenda).count (.resume number parent) = 1
  only : ∀ number parent, .resume number parent ∈ first.handled tree agenda →
    ∃ nesting : Nesting, position.nestings[number]? = some nesting ∧ parent ∈ nesting.parents
  /-- When a nesting is resumed, it has been finished, and it has the parent. -/
  order : ∀ before behind number parent,
    first.handled tree agenda = before ++ .resume number parent :: behind →
      Finishes tree before number ∧ parent ∈ (first.performAll tree before).parents number

/-- At the end of a walk the tasks that it has handled account for what is due. -/
theorem SetsOut.accounts_run (closed : tree.Closed) (sets : SetsOut tree first agenda) :
    Accounts tree first (first.handled tree agenda) (first.run tree agenda) [] := by
  have accounts := handledFor_keeps (P := Accounts tree first)
    (fun _ _ _ _ _ _ accounts handles => accounts.step closed handles)
    (first.budget tree agenda) [] first agenda sets.accounts
  rw [List.nil_append, sets.ends closed] at accounts
  rwa [handled, Walk.run]

/-- Every walk that sets out resumes once what it finishes. -/
theorem SetsOut.resumesOnce (closed : tree.Closed) (sets : SetsOut tree first agenda) :
    ResumesOnce tree first agenda (first.run tree agenda).position := by
  have accounts := sets.accounts_run closed
  have hend : runFor tree (first.budget tree agenda) first agenda = (first.run tree agenda, []) :=
    Prod.ext rfl (sets.ends closed)
  generalize first.run tree agenda = last at accounts hend ⊢
  refine ⟨?_, congrArg position accounts.reached, fun _ finishes => accounts.once finishes,
    fun _ _ h => getElem?_of_mem_parents (accounts.mem_parents h), accounts.order⟩
  rw [hend, accounts.reached]

end Walk

/-! ## All walks over a tree -/

variable {tree : Tree} {rules : List Rule} {options : Options} {entry : Nat} {position : Position}

/-- What walks lead to is a table of nestings with items in them. -/
theorem Position.Reachable.fits (closed : tree.Closed) (inside : entry < tree.size)
    (reachable : position.Reachable tree entry) :
    Nesting.Table tree position.nestings position.nextNesting ∧
      ∀ item ∈ position.items, item.Fits tree position.nestings := by
  induction reachable with
  | start =>
    obtain ⟨table, fits⟩ := fits_of_mem_run closed (Walk.setsOut_start inside)
    exact ⟨table, fun item hitem => (fits item hitem).1⟩
  | after _ part ih =>
    have sets := Walk.setsOut_after ih.1 fun item hitem => ih.2 item (part hitem)
    obtain ⟨table, fits⟩ := fits_of_mem_run closed sets
    exact ⟨table, fun item hitem => (fits item hitem).1⟩

/-- On the walk at the beginning of an entry rule, and on every walk behind items of a position that walks lead to,
whatever is finished is resumed exactly once for each parent that it has in the end, and nothing else is resumed. -/
theorem Walk.resumes_once (built : Tree.ofRules rules options = .ok tree) (hentry : entry ∈ tree.entryPoints) :
    ResumesOnce tree {} [.enter ⟨entry, none⟩] (.start tree entry) ∧
      ∀ position, Position.Reachable tree entry position → ∀ items ⊆ position.items,
        ResumesOnce tree { nestings := position.nestingsOf items, nextNesting := position.nextNesting }
          (items.map .advance) (position.after tree items) := by
  have closed := Tree.closed_ofRules built
  have inside := closed.lt_size_of_mem_entryPoints hentry
  constructor
  · rw [Position.start]
    exact (setsOut_start inside).resumesOnce closed
  · intro position reachable items part
    obtain ⟨table, fits⟩ := reachable.fits closed inside
    rw [Position.after]
    exact (setsOut_after table fun item hitem => fits item (part hitem)).resumesOnce closed

/-- Up to two parts, each of them a piece, which may be nothing. -/
def pieceRules : List Rule :=
  [⟨"whole", [[.reference "part" false (.times 2)]]⟩, ⟨"part", [[.reference "piece" false .once]]⟩,
    ⟨"piece", [[.symbol "put" [] true]]⟩]

def pieceTree : Tree := Tree.ofEntries 64 [Unfolding.ofEntry pieceRules "whole"]

/-- The piece is finished in the first part, and gets the second part for a parent while it is being resumed for the
first one. -/
theorem Walk.resumes_once_pieces :
    Tree.ofRules pieceRules .initial = .ok pieceTree ∧ 1 ∈ pieceTree.entryPoints ∧
      ((Position.start pieceTree 1).nestings[2]?).map Nesting.parents = some [some 1, some 3] ∧
      (handled pieceTree {} [.enter ⟨1, none⟩]).count (.resume 2 (some 1)) = 1 ∧
      (handled pieceTree {} [.enter ⟨1, none⟩]).count (.resume 2 (some 3)) = 1 ∧
      ∀ items ⊆ (Position.start pieceTree 1).items,
        ResumesOnce pieceTree
          { nestings := (Position.start pieceTree 1).nestingsOf items
            nextNesting := (Position.start pieceTree 1).nextNesting }
          (items.map .advance) ((Position.start pieceTree 1).after pieceTree items) := by
  have built : Tree.ofRules pieceRules .initial = .ok pieceTree := rfl
  have hentry : 1 ∈ pieceTree.entryPoints := by decide +kernel
  have hparents : ((Position.start pieceTree 1).nestings[2]?).map Nesting.parents = some [some 1, some 3] := by
    decide +kernel
  obtain ⟨begins, along⟩ := resumes_once built hentry
  obtain ⟨nesting, found, _, once⟩ := begins.once 2 ⟨4, by decide +kernel, by decide +kernel⟩
  have hnesting : nesting.parents = [some 1, some 3] := by simpa [found] using hparents
  exact ⟨built, hentry, hparents, once _ (by simp [hnesting]), once _ (by simp [hnesting]), along _ .start⟩

end ChainGrammar
