import ChainGrammar.Proofs.Position.Tidy
import Mathlib.Algebra.Order.BigOperators.Group.Finset
import Mathlib.Data.List.ProdSigma

/-!
# A walk comes to its end

The budget of a walk is enough: when it is spent, nothing is left on the agenda (`Walk.run_ends`).

Every task has a weight.  A task leads to tasks that together weigh less than it does, but for what an
item that is entered, or a parent of a finished nesting, adds to the tables (`Walk.Handles.weight_lt`).
There is room for so many of these only, because the nestings that a walk opens differ in their levels,
and a tree has no more than `Walk.levelCount` of them.
-/

set_option autoImplicit false

namespace ChainGrammar

/-- The weight of a task. -/
def Task.weight (tree : Tree) : Task → Nat
  | .enter _ => 1
  | .descend _ _ => tree.size + 1
  | .advance _ => 2
  | .resume _ _ => tree.size + 4

namespace Walk

variable {tree : Tree} {walk after : Walk} {task : Task} {agenda rest led : List Task}

/-- The weight of an agenda. -/
def weight (tree : Tree) : List Task → Nat
  | [] => 0
  | task :: agenda => task.weight tree + weight tree agenda

/-- The number of parents of the finished nestings. -/
def finishedParents (walk : Walk) : Nat :=
  ∑ number ∈ walk.finished.toList.toFinset, (walk.parents number).length

/-- The weight of two agendas in a row. -/
theorem weight_append (tree : Tree) (first second : List Task) :
    weight tree (first ++ second) = weight tree first + weight tree second := by
  induction first with
  | nil => simp [weight]
  | cons task first ih => rw [List.cons_append, weight, weight, ih, Nat.add_assoc]

/-- The weight of tasks that weigh the same. -/
theorem weight_map {α : Type} (tree : Tree) (l : List α) (f : α → Task) (w : Nat)
    (h : ∀ a, (f a).weight tree = w) : weight tree (l.map f) = l.length * w := by
  induction l with
  | nil => simp [weight]
  | cons a l ih => rw [List.map_cons, weight, h a, ih, List.length_cons, Nat.succ_mul, Nat.add_comm]

/-- No task weighs more than leaving a frame. -/
theorem weight_le (tree : Tree) (agenda : List Task) :
    weight tree agenda ≤ (tree.size + 4) * agenda.length := by
  induction agenda with
  | nil => simp [weight]
  | cons task agenda ih =>
    have htask : task.weight tree ≤ tree.size + 4 := by
      cases task <;> simp only [Task.weight] <;> omega
    rw [weight, List.length_cons, Nat.mul_succ]
    omega

/-- Every task weighs something. -/
theorem weight_pos (tree : Tree) (task : Task) : 0 < task.weight tree := by
  cases task <;> simp only [Task.weight] <;> omega

/-! ## What a step adds to the tables -/

/-- A finished nesting is one of the finished nestings. -/
theorem mem_finished_toFinset (walk : Walk) (number : Nat) :
    number ∈ walk.finished.toList.toFinset ↔ number ∈ walk.finished := by
  rw [List.mem_toFinset, Std.TreeSet.mem_toList]

/-- With the same nestings finished and no parents fewer, the finished nestings have no fewer. -/
theorem finishedParents_mono (same : after.finished = walk.finished)
    (h : ∀ number, (walk.parents number).length ≤ (after.parents number).length) :
    walk.finishedParents ≤ after.finishedParents := by
  rw [finishedParents, finishedParents, same]
  exact Finset.sum_le_sum fun number _ => h number

/-- A nesting that is finished adds its parents. -/
theorem finishedParents_finish {number : Nat} (fresh : number ∉ walk.finished) :
    (walk.finish number).finishedParents =
      walk.finishedParents + (walk.parents number).length := by
  have hinsert : (walk.finish number).finished.toList.toFinset =
      insert number walk.finished.toList.toFinset := by
    ext other
    rw [Finset.mem_insert, mem_finished_toFinset, mem_finished_toFinset, mem_finished_finish]
  rw [finishedParents, hinsert, Finset.sum_insert (by rwa [mem_finished_toFinset]), Nat.add_comm]
  rfl

/-- The parents after a nesting has been opened or has got a further one. -/
theorem length_parents_le_openNesting (fresh : walk.nestings[walk.nextNesting]? = none)
    (level : Level) (parent : Option Nat) (number : Nat) :
    (walk.parents number).length ≤ ((walk.openNesting level parent).parents number).length := by
  rw [parents_openNesting]
  split
  · rename_i h
    simp [h, parents, fresh]
  · exact Nat.le_refl _

/-- The parents of a nesting after one of the nestings has got a further one. -/
theorem length_parents_addParent (added : Nat) (parent : Option Nat) (number : Nat) :
    ((walk.addParent added parent).parents number).length = (walk.parents number).length +
      if number = added ∧ number ∈ walk.nestings then 1 else 0 := by
  rw [parents_addParent, List.length_append]
  split
  · rfl
  · rfl

/-- A parent of a finished nesting is one more of them. -/
theorem finishedParents_addParent {added : Nat} (present : added ∈ walk.nestings)
    (done : added ∈ walk.finished) (parent : Option Nat) :
    walk.finishedParents + 1 ≤ (walk.addParent added parent).finishedParents := by
  refine Nat.succ_le_of_lt (Finset.sum_lt_sum (fun number _ => ?_)
    ⟨added, (mem_finished_toFinset walk added).2 done, ?_⟩)
  · rw [length_parents_addParent]
    exact Nat.le_add_right _ _
  · rw [length_parents_addParent, if_pos ⟨rfl, present⟩]
    exact Nat.lt_succ_self _

/-- The alternatives of a frame together weigh no more than the tree. -/
theorem weight_alternatives_le (closed : tree.Closed) (frame : Frame) (number : Nat) :
    weight tree (alternatives tree frame number) ≤ tree.size := by
  rw [alternatives, weight_map tree _ _ 1 fun _ => rfl, Nat.mul_one]
  exact closed.few frame.body

/-- What entering an item leads to weighs no more than opening a frame and going on. -/
theorem weight_behind_le (tree : Tree) (item : Item) :
    weight tree (behind tree item) ≤ tree.size + 3 := by
  have hopens : ∀ opens : Option Nat, weight tree ((opens.map fun body =>
      Task.descend ⟨body, item.node, 1⟩ item.nesting).toList) ≤ tree.size + 1 := by
    intro opens
    cases opens <;> simp [weight, Task.weight]
  have hpast : weight tree (if (tree.label item.node).optional then [Task.advance item] else []) ≤
      2 := by
    split <;> simp [weight, Task.weight]
  have := hopens (tree.opens? item.node)
  rw [behind, weight_append]
  omega

/-- Leaving a frame weighs more than what it leads to. -/
theorem weight_left_lt (tree : Tree) (frame : Frame) (parent : Option Nat) :
    weight tree (left tree frame parent) < tree.size + 4 := by
  rw [left, weight_append]
  split
  · simp only [weight, Task.weight]
    omega
  · simp [weight, Task.weight]

/-- A task weighs more than the tasks that it leads to, but for what it adds to the tables. -/
theorem Handles.weight_lt (closed : tree.Closed) (tidy : walk.Tidy tree (task :: rest))
    (h : Handles tree walk task after led) :
    weight tree led + (tree.size + 4) * (walk.entered.size + walk.finishedParents) <
      task.weight tree + (tree.size + 4) * (after.entered.size + after.finishedParents) := by
  -- only an item that is entered, a parent of a finished nesting and a nesting that is finished add to
  -- the tables; what these lead to is paid for by what they add
  cases h with
  | known | tooDeep | completes | ended | lost =>
    exact Nat.add_lt_add_right (weight_pos tree _) _
  | @sees item fresh =>
    have hsize : (walk.see tree item).entered.size = walk.entered.size + 1 := by
      rw [see, Std.TreeSet.size_insert, if_neg (fun h => fresh (Std.TreeSet.mem_iff_contains.2 h))]
    have hparents : (walk.see tree item).finishedParents = walk.finishedParents := rfl
    have hled := weight_behind_le tree item
    rw [hsize, hparents, Nat.add_right_comm, Nat.mul_succ]
    simp only [Task.weight]
    omega
  | @opens frame parent within fresh =>
    have hparents : walk.finishedParents ≤
        (walk.openNesting (walk.levelOn tree frame parent) parent).finishedParents :=
      finishedParents_mono rfl (length_parents_le_openNesting tidy.fresh _ _)
    have hled := weight_alternatives_le closed frame walk.nextNesting
    have hmul := Nat.mul_le_mul_left (tree.size + 4) (Nat.add_le_add_left hparents walk.entered.size)
    simp only [Task.weight, openNesting] at hmul ⊢
    omega
  | @shares frame parent number =>
    have hled := weight_alternatives_le closed frame number
    simp only [Task.weight]
    omega
  | @joins frame parent number within isOpen fresh =>
    obtain ⟨_, nesting, found, _⟩ := tidy.opened _ number isOpen
    have hled := weight_alternatives_le closed frame number
    rw [weight_append]
    split
    · rename_i done
      have hparents := finishedParents_addParent (mem_of_getElem? found) done parent
      have hmul := Nat.mul_le_mul_left (tree.size + 4)
        (Nat.add_le_add_left hparents walk.entered.size)
      rw [← Nat.add_assoc, Nat.mul_succ] at hmul
      simp only [Task.weight, addParent, weight] at hmul ⊢
      omega
    · have hparents : walk.finishedParents ≤ (walk.addParent number parent).finishedParents := by
        refine finishedParents_mono rfl fun other => ?_
        rw [length_parents_addParent]
        exact Nat.le_add_right _ _
      have hmul := Nat.mul_le_mul_left (tree.size + 4)
        (Nat.add_le_add_left hparents walk.entered.size)
      simp only [Task.weight, addParent, weight] at hmul ⊢
      omega
  | goesOn =>
    refine Nat.add_lt_add_right ?_ _
    simp [weight, Task.weight]
  | @finishes node number last fresh =>
    have hled : weight tree ((walk.parents number).map (Task.resume number)) =
        (tree.size + 4) * (walk.parents number).length := by
      rw [weight_map tree _ _ (tree.size + 4) fun _ => rfl, Nat.mul_comm]
    have hentered : (walk.finish number).entered = walk.entered := rfl
    rw [hled, hentered, finishedParents_finish fresh, ← Nat.mul_add]
    have hsum : (walk.parents number).length + (walk.entered.size + walk.finishedParents) =
        walk.entered.size + (walk.finishedParents + (walk.parents number).length) := by omega
    rw [hsum]
    exact Nat.lt_add_of_pos_left (weight_pos tree _)
  | @resumes number parent nesting found =>
    exact Nat.add_lt_add_right (weight_left_lt tree nesting.frame parent) _

/-! ## Room in the tables -/

/-- The walk has opened all but the given number of its nestings. -/
def Opens (walk : Walk) (kept : Nat) : Prop := walk.nestings.size = kept + walk.opened.size

/-- Every step opens as many nestings as levels. -/
theorem Opens.step {kept : Nat} (opens : walk.Opens kept) (tidy : walk.Tidy tree (task :: rest))
    (h : Handles tree walk task after led) : after.Opens kept := by
  cases h with
  | known | tooDeep | ended | lost | sees | shares | goesOn | completes | finishes | resumes =>
    exact opens
  | @opens frame parent within fresh =>
    have hnesting : ¬walk.nestings.contains walk.nextNesting = true := fun h =>
      tidy.ne_nextNesting (Std.TreeMap.mem_iff_contains.2 h) rfl
    have hlevel : ¬walk.opened.contains (walk.levelOn tree frame parent) = true := by
      rw [← Std.TreeMap.mem_iff_contains, Std.TreeMap.mem_iff_isSome_getElem?, fresh]
      exact Bool.false_ne_true
    simp only [Opens, openNesting, Std.TreeMap.size_insert, if_neg hnesting, if_neg hlevel] at opens ⊢
    omega
  | joins =>
    simp only [Opens, addParent, Std.TreeMap.size_modify] at opens ⊢
    exact opens

/-- The levels of a tree up to a longest repetition. -/
def levels (tree : Tree) : List Level :=
  (List.range tree.size ×ˢ List.range tree.size ×ˢ List.range' 1 (longestRepeat tree) ×ˢ
    List.range (tree.maxDepth + 1)).map fun (body, origin, iteration, depth) =>
      ⟨⟨body, origin, iteration⟩, depth⟩

/-- A tidy walk has opened no more nestings than there are levels. -/
theorem Tidy.size_opened_le (tidy : walk.Tidy tree agenda) :
    walk.opened.size ≤ levelCount tree := by
  have hsubset : walk.opened.keys ⊆ levels tree := by
    intro level hlevel
    rw [Std.TreeMap.mem_keys, Std.TreeMap.mem_iff_isSome_getElem?] at hlevel
    obtain ⟨number, hnumber⟩ := Option.isSome_iff_exists.1 hlevel
    obtain ⟨hdepth, nesting, found, rfl⟩ := tidy.opened level number hnumber
    obtain ⟨hbody, horigin, hpositive, hcounted⟩ := tidy.table.frame number nesting found
    refine List.mem_map.2 ⟨(nesting.frame.body, nesting.frame.origin, nesting.frame.iteration,
      nesting.depth), ?_, rfl⟩
    simp only [List.mem_product, List.mem_range, List.mem_range'_1]
    omega
  have hlength := (List.subperm_of_subset Std.TreeMap.nodup_keys hsubset).length_le
  rw [Std.TreeMap.length_keys, levels, List.length_map, List.length_product, List.length_product,
    List.length_product, List.length_range, List.length_range, List.length_range'] at hlength
  rw [levelCount]
  simpa only [Nat.mul_assoc] using hlength

/-- The nestings that may be below an item, and their number. -/
def places (nestings : Std.TreeMap Nat Nesting) : List (Option Nat) := none :: nestings.keys.map some

/-- There is one place more than nestings. -/
theorem length_places (nestings : Std.TreeMap Nat Nesting) :
    (places nestings).length = nestings.size + 1 := by
  rw [places, List.length_cons, List.length_map, Std.TreeMap.length_keys]

/-- What is present is one of the places. -/
theorem mem_places {nestings : Std.TreeMap Nat Nesting} {nesting : Option Nat}
    (present : Nesting.Present nestings nesting) : nesting ∈ places nestings := by
  cases nesting with
  | none => exact List.mem_cons_self
  | some number =>
    refine List.mem_cons_of_mem _ (List.mem_map.2 ⟨number, ?_, rfl⟩)
    exact Std.TreeMap.mem_keys.2 (present number rfl)

/-- A tidy walk has entered no more items than there are nodes in places. -/
theorem Tidy.size_entered_le (tidy : walk.Tidy tree agenda) :
    walk.entered.size ≤ tree.size * (walk.nestings.size + 1) := by
  have hsubset : walk.entered.toList ⊆
      (List.range tree.size ×ˢ places walk.nestings).map fun (node, nesting) => ⟨node, nesting⟩ := by
    intro item hitem
    have hfits := tidy.entered item (Std.TreeSet.mem_toList.1 hitem)
    refine List.mem_map.2 ⟨(item.node, item.nesting), ?_, rfl⟩
    rw [List.mem_product]
    exact ⟨List.mem_range.2 hfits.node, mem_places hfits.present⟩
  have hnodup : walk.entered.toList.Nodup := by
    refine Std.TreeSet.distinct_toList.imp fun h => ?_
    rwa [ne_eq, ← Std.LawfulEqOrd.compare_eq_iff_eq]
  have hlength := (List.subperm_of_subset hnodup hsubset).length_le
  rwa [Std.TreeSet.length_toList, List.length_map, List.length_product, List.length_range,
    length_places] at hlength

/-- The finished nestings of a tidy walk have no more parents than there are places. -/
theorem Tidy.finishedParents_le (tidy : walk.Tidy tree agenda) :
    walk.finishedParents ≤ walk.nestings.size * (walk.nestings.size + 1) := by
  have hparents : ∀ number, (walk.parents number).length ≤ walk.nestings.size + 1 := by
    intro number
    cases hfound : walk.nestings[number]? with
    | none => simp [parents, hfound]
    | some nesting =>
      rw [parents_of_getElem? hfound, ← length_places]
      exact (List.subperm_of_subset (tidy.table.distinct number nesting hfound) fun parent hparent =>
        mem_places (tidy.table.present number nesting hfound parent hparent)).length_le
  have hcard : walk.finished.toList.toFinset.card ≤ walk.nestings.size := by
    have hsubset : walk.finished.toList.toFinset ⊆ walk.nestings.keys.toFinset := by
      intro number hnumber
      rw [mem_finished_toFinset] at hnumber
      exact List.mem_toFinset.2 (Std.TreeMap.mem_keys.2 (tidy.finished number hnumber))
    refine (Finset.card_le_card hsubset).trans ((List.toFinset_card_le _).trans ?_)
    rw [Std.TreeMap.length_keys]
  refine (Finset.sum_le_card_nsmul _ _ _ fun number _ => hparents number).trans ?_
  exact Nat.mul_le_mul_right _ hcard

/-- A walk that has room for its agenda in its budget works the agenda off. -/
theorem runFor_ends (closed : tree.Closed) (kept limit : Nat) (walk : Walk) (agenda : List Task)
    (tidy : walk.Tidy tree agenda) (opens : walk.Opens kept)
    (enough : weight tree agenda + (tree.size + 4) *
      (tree.size * (kept + levelCount tree + 1) +
        (kept + levelCount tree) * (kept + levelCount tree + 1)) ≤
      limit + (tree.size + 4) * (walk.entered.size + walk.finishedParents)) :
    (runFor tree limit walk agenda).2 = [] := by
  induction limit generalizing walk agenda with
  | zero =>
    -- the tables of a tidy walk have no more room than the budget allows for, so nothing can be left
    have hroom : walk.nestings.size ≤ kept + levelCount tree := by
      have hopened := tidy.size_opened_le
      rw [opens]
      omega
    have hentered : walk.entered.size ≤ tree.size * (kept + levelCount tree + 1) :=
      tidy.size_entered_le.trans (Nat.mul_le_mul_left _ (Nat.succ_le_succ hroom))
    have hparents : walk.finishedParents ≤
        (kept + levelCount tree) * (kept + levelCount tree + 1) :=
      tidy.finishedParents_le.trans (Nat.mul_le_mul hroom (Nat.succ_le_succ hroom))
    have hfull := Nat.mul_le_mul_left (tree.size + 4) (Nat.add_le_add hentered hparents)
    cases agenda with
    | nil => rfl
    | cons task rest =>
      have hpositive := weight_pos tree task
      rw [weight] at enough
      omega
  | succ limit ih =>
    cases agenda with
    | nil => rfl
    | cons task rest =>
      have handles := perform_handles tree walk task
      have hless := handles.weight_lt closed tidy
      have henough : weight tree ((walk.perform tree task).2 ++ rest) + (tree.size + 4) *
          (tree.size * (kept + levelCount tree + 1) +
            (kept + levelCount tree) * (kept + levelCount tree + 1)) ≤
          limit + (tree.size + 4) * ((walk.perform tree task).1.entered.size +
            (walk.perform tree task).1.finishedParents) := by
        rw [weight] at enough
        rw [weight_append]
        omega
      exact ih _ _ (tidy.step closed handles) (opens.step tidy handles) henough

/-- Nothing is left of an agenda when the budget is spent. -/
theorem run_ends (closed : tree.Closed) (tidy : walk.Tidy tree agenda) (new : walk.opened = ∅) :
    (runFor tree (walk.budget tree agenda) walk agenda).2 = [] := by
  refine runFor_ends closed walk.nestings.size _ walk agenda tidy ?_ ?_
  · rw [Opens, new]
    rfl
  · have hweight := weight_le tree agenda
    rw [budget]
    generalize walk.nestings.size + levelCount tree = room
    rw [Nat.mul_add (tree.size + 4) agenda.length]
    have hroom : tree.size * (room + 1) + room * (room + 1) ≤ (room + 1) * (tree.size + 2 * room) := by
      rw [← Nat.add_mul, Nat.mul_comm]
      exact Nat.mul_le_mul_left _ (by omega)
    have hmul := Nat.mul_le_mul_left (tree.size + 4) hroom
    omega

/-! ## Two walks side by side -/

/-- When nothing is left of an agenda, a larger budget makes no difference. -/
theorem runFor_add {limit : Nat} (h : (runFor tree limit walk agenda).2 = []) (more : Nat) :
    runFor tree (limit + more) walk agenda = runFor tree limit walk agenda := by
  induction limit generalizing walk agenda with
  | zero =>
    obtain rfl : agenda = [] := h
    cases more <;> rfl
  | succ limit ih =>
    rw [Nat.add_right_comm]
    cases agenda with
    | nil => rfl
    | cons task rest => exact ih h

/-- A budget that is large enough leads where the walk leads. -/
theorem runFor_of_budget_le {limit : Nat}
    (ends : (runFor tree (walk.budget tree agenda) walk agenda).2 = [])
    (enough : walk.budget tree agenda ≤ limit) :
    runFor tree limit walk agenda = (walk.run tree agenda, []) := by
  obtain ⟨more, rfl⟩ := Nat.exists_eq_add_of_le enough
  rw [runFor_add ends]
  exact Prod.ext rfl ends

/-- A relation between walks with their agendas that is kept when both handle their first tasks. -/
structure Lockstep (tree other : Tree) (related : Walk → List Task → Walk → List Task → Prop) :
    Prop where
  step : ∀ {walk walk' : Walk} {task : Task} {rest agenda : List Task},
    related walk (task :: rest) walk' agenda → ∃ task' rest', agenda = task' :: rest' ∧
      related (walk.perform tree task).1 ((walk.perform tree task).2 ++ rest)
        (walk'.perform other task').1 ((walk'.perform other task').2 ++ rest')
  stop : ∀ {walk walk' : Walk} {agenda : List Task}, related walk [] walk' agenda → agenda = []

/-- Two walks in lockstep are related after equally many tasks. -/
theorem Lockstep.runFor {other : Tree} {related : Walk → List Task → Walk → List Task → Prop}
    (lockstep : Lockstep tree other related) (limit : Nat) {walk walk' : Walk}
    {agenda agenda' : List Task} (h : related walk agenda walk' agenda') :
    related (runFor tree limit walk agenda).1 (runFor tree limit walk agenda).2
      (runFor other limit walk' agenda').1 (runFor other limit walk' agenda').2 := by
  induction limit generalizing walk walk' agenda agenda' with
  | zero => exact h
  | succ limit ih =>
    cases agenda with
    | nil =>
      obtain rfl := lockstep.stop h
      exact h
    | cons task rest =>
      obtain ⟨task', rest', rfl, hnext⟩ := lockstep.step h
      exact ih hnext

/-- Two walks in lockstep are related at their ends, although their budgets may differ. -/
theorem Lockstep.run {other : Tree} {related : Walk → List Task → Walk → List Task → Prop}
    (lockstep : Lockstep tree other related) {walk walk' : Walk} {agenda agenda' : List Task}
    (ends : (Walk.runFor tree (walk.budget tree agenda) walk agenda).2 = [])
    (ends' : (Walk.runFor other (walk'.budget other agenda') walk' agenda').2 = [])
    (h : related walk agenda walk' agenda') :
    related (walk.run tree agenda) [] (walk'.run other agenda') [] := by
  have hrun := lockstep.runFor (walk.budget tree agenda + walk'.budget other agenda') h
  rw [runFor_of_budget_le ends (Nat.le_add_right _ _),
    runFor_of_budget_le ends' (Nat.le_add_left _ _)] at hrun
  exact hrun

end Walk

end ChainGrammar
