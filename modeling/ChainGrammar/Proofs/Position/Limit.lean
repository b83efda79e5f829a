import ChainGrammar.Proofs.Position.Exactness

/-!
# The nesting limit

The limit on nested back-edges does nothing but cut off what is deeper.  Under a higher limit the plain
machine makes all the moves that it makes under a lower one (`Plain.After.deepen`).

In a tree without back-edges nothing is deep however far rules nest: all nestings stand at depth zero, so no
walk ever meets the limit, and positions are the same whatever it is (`Position.start_limited`,
`Position.after_limited`).
-/

set_option autoImplicit false

namespace ChainGrammar

namespace Tree

/-- The tree with another limit on nested back-edges; a limit of zero is raised to one. -/
def limited (tree : Tree) (depth : Nat) : Tree := { tree with maxDepth := max depth 1 }

/-- There is no back-edge in the tree. -/
def Flat (tree : Tree) : Prop := ∀ id, (tree.label id).isBackEdge = false

variable {tree : Tree} (depth : Nat)

@[simp]
theorem label_limited (id : Nat) : (tree.limited depth).label id = tree.label id := rfl

@[simp]
theorem body_limited (id : Nat) : (tree.limited depth).body id = tree.body id := rfl

@[simp]
theorem ancestors_limited (id : Nat) : (tree.limited depth).ancestors id = tree.ancestors id := by
  induction id using Nat.strongRecOn with
  | _ id ih =>
    cases hparent : tree.parent? id with
    | none =>
      have hlimited : (tree.limited depth).parent? id = none := hparent
      rw [ancestors_of_parent?_none hparent, ancestors_of_parent?_none hlimited]
    | some p =>
      have hlimited : (tree.limited depth).parent? id = some p := hparent
      rw [ancestors_of_parent? hparent, ancestors_of_parent? hlimited, ih p (parent?_lt hparent)]

@[simp]
theorem target?_limited (id : Nat) : (tree.limited depth).target? id = tree.target? id := by
  unfold target? enclosingRule?
  simp only [label_limited, ancestors_limited]

/-- Rules with a tree have it under every limit. -/
theorem ofRules_limited {rules : List Rule} {options : Options}
    (built : Tree.ofRules rules options = .ok tree) :
    Tree.ofRules rules (options.withMaxDepth depth) = .ok (tree.limited depth) := by
  have hentries : Rules.entryNames rules (options.withMaxDepth depth) =
      Rules.entryNames rules options := rfl
  unfold Tree.ofRules at built ⊢
  rw [hentries]
  split at built
  · cases built
  · rename_i hrules
    rw [if_neg hrules]
    split at built
    · cases built
    · split at built
      · cases built
      · split at built
        · cases built
        · obtain rfl := Except.ok.inj built
          rfl

theorem Flat.of_nodes (h : ∀ node ∈ tree.nodes.toList, node.label.isBackEdge = false) : tree.Flat :=
  forall_label (P := fun label => label.isBackEdge = false) rfl h

theorem Closed.limited (closed : tree.Closed) : (tree.limited depth).Closed :=
  ⟨closed.below, closed.few⟩

end Tree

variable {tree : Tree} {depth shallow deep : Nat}

/-! ## Under a higher limit -/

namespace Plain

/-- A move under a limit is a move under a higher one. -/
theorem Silent.deepen (higher : shallow ≤ deep) {first second : State}
    (move : Silent (tree.limited shallow) first second) : Silent (tree.limited deep) first second := by
  have hlimit : (tree.limited shallow).maxDepth ≤ (tree.limited deep).maxDepth := by
    simp only [Tree.limited]
    omega
  cases move with
  | descend opens within member =>
    rw [Tree.target?_limited] at opens
    exact .descend (by rwa [Tree.target?_limited]) (Nat.le_trans within hlimit) member
  | skip omissible => exact .skip omissible
  | next found => exact .next found
  | again last allows within member => exact .again last allows (Nat.le_trans within hlimit) member
  | leave last => exact .leave last
  | finish last => exact .finish last

/-- What calls lead to under a limit they lead to under a higher one. -/
theorem After.deepen (higher : shallow ≤ deep) {entry : Nat} {calls : List Call} {state : State}
    (h : After (tree.limited shallow) entry calls state) : After (tree.limited deep) entry calls state := by
  induction h with
  | start => exact .start
  | silent _ move ih => exact .silent ih (move.deepen higher)
  | call _ method fits ih => exact .call ih method fits

end Plain

/-! ## Without back-edges -/

/-- In a tree without back-edges every nesting stands at depth zero. -/
theorem Nesting.Table.depthIn_eq_zero {nestings : Std.TreeMap Nat Nesting} {next : Nat}
    (table : Nesting.Table tree nestings next) (flat : tree.Flat) (nesting : Option Nat) :
    Nesting.depthIn nestings nesting = 0 := by
  cases nesting with
  | none => rfl
  | some number =>
    -- what a nesting is on top of is older, and only a back-edge would stand deeper than that
    induction number using Nat.strongRecOn with
    | _ number ih =>
      cases found : nestings[number]? with
      | none => simp [Nesting.depthIn, found]
      | some nesting =>
        obtain ⟨parent, hparent, older⟩ := table.founded number nesting found
        have hdepth := table.depth number nesting found parent hparent
        rw [flat, if_neg Bool.false_ne_true, Nat.add_zero] at hdepth
        have hbelow : Nesting.depthIn nestings parent = 0 := by
          cases parent with
          | none => rfl
          | some below => exact ih below (older below rfl)
        rw [Nesting.depthIn, found]
        exact hdepth.trans hbelow

namespace Walk

variable {walk : Walk} {agenda : List Task}

/-- In a tree without back-edges every task is handled alike under every limit. -/
theorem Tidy.perform_limited (tidy : walk.Tidy tree agenda) (flat : tree.Flat) (task : Task) :
    walk.perform (tree.limited depth) task = walk.perform tree task := by
  cases task with
  | enter item =>
    simp only [perform, enter, Tree.target?_limited]
    rfl
  | descend frame parent =>
    have hsame : walk.levelOn (tree.limited depth) frame parent = walk.levelOn tree frame parent := rfl
    have hdepth : (walk.levelOn tree frame parent).depth = 0 := by
      rw [levelOn, flat, depth_eq_depthIn, tidy.table.depthIn_eq_zero flat]
      rfl
    -- no limit is below zero, so neither walk is turned back here
    simp only [perform, descend, hsame, hdepth, Nat.not_lt_zero, if_false, Tree.body_limited]
  | advance item => rfl
  | resume number parent => rfl

/-- In a tree without back-edges walks under two limits are in lockstep: they are the same. -/
theorem lockstep_limited (closed : tree.Closed) (flat : tree.Flat) :
    Lockstep tree (tree.limited depth) fun walk agenda walk' agenda' =>
      walk' = walk ∧ agenda' = agenda ∧ walk.Tidy tree agenda where
  step := by
    rintro walk _ task rest _ ⟨rfl, rfl, tidy⟩
    refine ⟨task, rest, rfl, ?_⟩
    rw [tidy.perform_limited flat]
    exact ⟨rfl, rfl, tidy.step closed (perform_handles tree _ task)⟩
  stop h := h.2.1

/-- Where a walk sets out it does so under every limit. -/
theorem SetsOut.limited (sets : SetsOut tree walk agenda) (depth : Nat) :
    SetsOut (tree.limited depth) walk agenda where
  table := { sets.table with
    frame := fun number nesting found =>
      have fits := sets.table.frame number nesting found
      ⟨fits.body, fits.origin, fits.positive, fits.counted⟩
    depth := sets.table.depth }
  blank := sets.blank
  items task htask :=
    have ⟨item, fits, entered⟩ := sets.items task htask
    ⟨item, ⟨fits.node, fits.present⟩, entered⟩

/-- In a tree without back-edges a walk leads to the same under every limit. -/
theorem SetsOut.run_limited (closed : tree.Closed) (flat : tree.Flat) (sets : SetsOut tree walk agenda) :
    walk.run (tree.limited depth) agenda = walk.run tree agenda :=
  ((lockstep_limited closed flat).run (sets.ends closed)
    ((sets.limited depth).ends (closed.limited depth)) ⟨rfl, rfl, sets.tidy⟩).1

end Walk

namespace Position

/-- Without back-edges an entry rule begins alike under every limit. -/
theorem start_limited (depth : Nat) (closed : tree.Closed) (flat : tree.Flat) {entry : Nat}
    (hentry : entry < tree.size) : start (tree.limited depth) entry = start tree entry := by
  rw [start, start, (Walk.setsOut_start hentry).run_limited closed flat]

/-- Without back-edges a call leads to the same position under every limit. -/
theorem after_limited (closed : tree.Closed) (flat : tree.Flat) {position : Position}
    {items : List Item} (table : Nesting.Table tree position.nestings position.nextNesting)
    (fits : ∀ item ∈ items, item.Fits tree position.nestings) :
    position.after (tree.limited depth) items = position.after tree items := by
  rw [after, after, (Walk.setsOut_after table fits).run_limited closed flat]

end Position

end ChainGrammar
