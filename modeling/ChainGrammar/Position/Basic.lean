import ChainGrammar.Tree
import Std.Data.TreeMap

/-!
# Positions of a chain

A position is what a chain can do next.  It lists items: a method of the tree together with the
nesting of rules in which it is met.  A nesting is a stack of frames, one for each rule that is being
walked; stacks are shared, so a nesting holds its top frame and the nestings that may lie below it,
where `none` stands for the empty stack.

Only frames opened by back-edges count towards the depth of a nesting.
-/

set_option autoImplicit false

namespace ChainGrammar

/-- One occurrence of a rule that is being walked. -/
structure Frame where
  /-- The node of the rule whose definitions are walked. -/
  body : Nat
  /-- The node that opened the rule: the rule itself, or a back-edge to it. -/
  origin : Nat
  /-- The number of this occurrence among consecutive ones, which stays one where they are not
  limited. -/
  iteration : Nat
  deriving DecidableEq, Inhabited

/-- A frame with the number of back-edge frames of its stack, itself included. -/
structure Level where
  frame : Frame
  depth : Nat
  deriving DecidableEq, Inhabited

/-- A frame on top of any of several stacks. -/
structure Nesting extends Level where
  parents : List (Option Nat)
  deriving DecidableEq, Inhabited

/-- A node of the tree, met in a nesting. -/
structure Item where
  node : Nat
  nesting : Option Nat
  deriving DecidableEq, Inhabited

/-- What a chain can do next. -/
structure Position where
  /-- The methods on offer, in the order of the alternatives. -/
  items : List Item
  /-- May the chain end here? -/
  complete : Bool
  /-- The nestings of the items and all below them, by number. -/
  nestings : Std.TreeMap Nat Nesting
  /-- A number above those of all nestings. -/
  nextNesting : Nat

instance : Inhabited Position := ⟨⟨[], false, ∅, 0⟩⟩

/-- Levels are told apart by their four numbers, the depth first. -/
def Level.order : Level → Level → Ordering :=
  compareLex (compareOn Level.depth)
    (compareLex (compareOn fun level => level.frame.origin)
      (compareLex (compareOn fun level => level.frame.body)
        (compareOn fun level => level.frame.iteration)))

instance : Ord Level := ⟨Level.order⟩

instance : Std.TransOrd Level :=
  inferInstanceAs (Std.TransCmp (compareLex (compareOn Level.depth)
    (compareLex (compareOn fun level => level.frame.origin)
      (compareLex (compareOn fun level => level.frame.body)
        (compareOn fun level => level.frame.iteration)))))

instance : Std.LawfulEqOrd Level where
  eq_of_compare := by
    intro a b h
    have h : Level.order a b = .eq := h
    simp only [Level.order, compareLex_eq_eq, compareOn,
      Std.LawfulEqOrd.compare_eq_iff_eq] at h
    obtain ⟨⟨_, _, _⟩, _⟩ := a
    obtain ⟨⟨_, _, _⟩, _⟩ := b
    simp_all

/-- Items are told apart by their node and their nesting. -/
def Item.order : Item → Item → Ordering :=
  compareLex (compareOn Item.node) (compareOn Item.nesting)

instance : Ord Item := ⟨Item.order⟩

instance : Std.TransOrd Item :=
  inferInstanceAs (Std.TransCmp (compareLex (compareOn Item.node) (compareOn Item.nesting)))

instance : Std.LawfulEqOrd Item where
  eq_of_compare := by
    intro a b h
    have h : Item.order a b = .eq := h
    simp only [Item.order, compareLex_eq_eq, compareOn, Std.LawfulEqOrd.compare_eq_iff_eq] at h
    cases a
    cases b
    simp_all

namespace Nesting

/-- Taking a nesting away leaves fewer nestings. -/
theorem size_erase_lt {nestings : Std.TreeMap Nat Nesting} {number : Nat} {nesting : Nesting}
    (found : nestings[number]? = some nesting) : (nestings.erase number).size < nestings.size := by
  have hmem : number ∈ nestings := by
    rw [Std.TreeMap.mem_iff_isSome_getElem?, found]
    rfl
  have hpos : nestings.size ≠ 0 := fun h =>
    Std.TreeMap.not_mem_of_isEmpty (by rw [Std.TreeMap.isEmpty_eq_size_eq_zero, h]; rfl) hmem
  rw [Std.TreeMap.size_erase, if_pos (Std.TreeMap.mem_iff_contains.1 hmem)]
  omega

/-- Move the nestings of the given numbers, and those below them, from `left` to `kept`. -/
def gather (left kept : Std.TreeMap Nat Nesting) : List Nat → Std.TreeMap Nat Nesting
  | [] => kept
  | number :: rest =>
    match found : left[number]? with
    | none => gather left kept rest
    | some nesting =>
      have := size_erase_lt found
      gather (left.erase number) (kept.insert number nesting)
        (nesting.parents.filterMap id ++ rest)
termination_by todo => (left.size, todo.length)

end Nesting

namespace Position

/-- The nestings of a position that the given items need. -/
def nestingsOf (position : Position) (items : List Item) : Std.TreeMap Nat Nesting :=
  Nesting.gather position.nestings ∅ (items.filterMap Item.nesting)

/-- The items that offer the method of the given name. -/
def matching (position : Position) (tree : Tree) (name : String) : List Item :=
  position.items.filter fun item => (tree.label item.node).name == name

/-- The names of the methods on offer, each once, in the order of the alternatives. -/
def methods (position : Position) (tree : Tree) : List String :=
  (position.items.map fun item => (tree.label item.node).name).eraseDups

end Position

end ChainGrammar
