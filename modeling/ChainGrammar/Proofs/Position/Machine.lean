import ChainGrammar.Position.Plain
import ChainGrammar.Proofs.Position.Tidy
import Mathlib.Logic.Relation

/-!
# The plain machine, call by call

After a list of calls the plain machine is in the states that silent moves lead to from behind the
methods that have just been called (`Plain.after_append_iff`).  The stacks of a tidy table have the
depths that the table gives (`Position.Unfolds.depthOf_eq`).
-/

set_option autoImplicit false

namespace ChainGrammar

variable {tree : Tree}

/-- A rule is entered at its own node, and where a back-edge leads. -/
theorem Tree.opens?_eq_some_iff {id body : Nat} :
    tree.opens? id = some body ↔
      (∃ name optional repeats, tree.label id = .rule name optional repeats) ∧ body = id ∨
        tree.target? id = some body := by
  unfold Tree.opens? Tree.target?
  cases tree.label id <;> simp [eq_comm]

/-- Only back-edges lead back. -/
theorem Tree.isBackEdge_of_target? {id body : Nat} (h : tree.target? id = some body) :
    (tree.label id).isBackEdge = true := by
  unfold Tree.target? at h
  split at h
  · rename_i hlabel
    rw [hlabel]
    rfl
  · cases h

namespace Plain

/-- The states that silent moves lead to. -/
abbrev Reaches (tree : Tree) : State → State → Prop := Relation.ReflTransGen (Silent tree)

/-- What the machine can be in after the calls it can still be in after more silent moves. -/
theorem After.reaches {entry : Nat} {calls : List Call} {first second : State}
    (h : After tree entry calls first) (moves : Reaches tree first second) :
    After tree entry calls second := by
  induction moves with
  | refl => exact h
  | tail _ move ih => exact .silent ih move

/-- Before any call the machine is where silent moves lead to from the entry rule. -/
theorem after_nil_iff {entry : Nat} {state : State} :
    After tree entry [] state ↔ Reaches tree (.before entry []) state := by
  constructor
  · intro h
    generalize hcalls : ([] : List Call) = calls at h
    induction h with
    | start => exact .refl
    | silent _ move ih => exact (ih hcalls).tail move
    | call => simp at hcalls
  · exact fun moves => After.start.reaches moves

/-- A call that the machine can make at a node. -/
def Accepts (tree : Tree) (node : Nat) (call : Call) : Prop :=
  (tree.label node).isMethod = true ∧ (tree.label node).name = call.method ∧
    (tree.label node).params.length = call.args.length

/-- After one more call the machine is where silent moves lead to from behind a method that accepts
the call. -/
theorem after_append_iff {entry : Nat} {calls : List Call} {call : Call} {state : State} :
    After tree entry (calls ++ [call]) state ↔
      ∃ node stack, After tree entry calls (.before node stack) ∧ Accepts tree node call ∧
        Reaches tree (.behind node stack) state := by
  constructor
  · intro h
    generalize hcalls : calls ++ [call] = all at h
    induction h with
    | start => simp at hcalls
    | silent _ move ih =>
      obtain ⟨node, stack, before, accepts, moves⟩ := ih hcalls
      exact ⟨node, stack, before, accepts, moves.tail move⟩
    | @call _ node stack name owner params optional args before method fits =>
      obtain ⟨rfl, hcall⟩ := List.append_inj' hcalls rfl
      obtain rfl := List.singleton_inj.1 hcall
      exact ⟨node, stack, before, by simp [Accepts, method, Label.isMethod, Label.name,
        Label.params, fits], .refl⟩
  · rintro ⟨node, stack, before, ⟨hmethod, hname, hparams⟩, moves⟩
    cases hlabel : tree.label node with
    | method name owner params optional =>
      rw [hlabel] at hname hparams
      obtain ⟨method, args⟩ := call
      obtain rfl : name = method := hname
      exact (After.call before hlabel hparams.symm).reaches moves
    | root | rule | backEdge => simp [hlabel, Label.isMethod] at hmethod

end Plain

/-- Depths are counted frame by frame. -/
theorem Frame.depthOf_cons (tree : Tree) (frame : Frame) (stack : List Frame) :
    Frame.depthOf tree (frame :: stack) = Frame.depthOf tree stack +
      if (tree.label frame.origin).isBackEdge then 1 else 0 := by
  rw [depthOf, List.countP_cons]
  rfl

namespace Position

variable {position : Position}

/-- The empty stack is what the top level stands for. -/
theorem unfolds_none_iff {stack : List Frame} : position.Unfolds none stack ↔ stack = [] := by
  constructor
  · intro h
    cases h
    rfl
  · rintro rfl
    exact .top

/-- What a nesting stands for. -/
theorem unfolds_some_iff {number : Nat} {stack : List Frame} :
    position.Unfolds (some number) stack ↔
      ∃ nesting : Nesting, position.nestings[number]? = some nesting ∧
        ∃ parent ∈ nesting.parents, ∃ below, position.Unfolds parent below ∧
          stack = nesting.frame :: below := by
  constructor
  · intro h
    cases h with
    | nested found member rest => exact ⟨_, found, _, member, _, rest, rfl⟩
  · rintro ⟨nesting, found, parent, member, below, rest, rfl⟩
    exact .nested found member rest

/-- Only nestings of the table stand for a stack. -/
theorem Unfolds.present {nesting : Option Nat} {stack : List Frame}
    (h : position.Unfolds nesting stack) : Nesting.Present position.nestings nesting := by
  rintro number rfl
  obtain ⟨nesting, found, _⟩ := unfolds_some_iff.1 h
  exact Walk.mem_of_getElem? found

/-- The stacks of a nesting have the depth of the nesting. -/
theorem Unfolds.depthOf_eq {next : Nat} (table : Nesting.Table tree position.nestings next)
    {nesting : Option Nat} {stack : List Frame} (h : position.Unfolds nesting stack) :
    Frame.depthOf tree stack = Nesting.depthIn position.nestings nesting := by
  induction h with
  | top => rfl
  | @nested number nesting parent below found member rest ih =>
    have hdepth := table.depth number nesting found parent member
    simp only [Frame.depthOf_cons, ih, Nesting.depthIn, found, Option.map_some, Option.getD_some]
    exact hdepth.symm

/-- A nesting of a table stands for some stack. -/
theorem exists_unfolds {next : Nat} (table : Nesting.Table tree position.nestings next)
    {nesting : Option Nat} (present : Nesting.Present position.nestings nesting) :
    ∃ stack, position.Unfolds nesting stack := by
  cases nesting with
  | none => exact ⟨[], .top⟩
  | some number =>
    induction number using Nat.strongRecOn with
    | _ number ih =>
      obtain ⟨found, hfound⟩ := Walk.exists_of_mem (present number rfl)
      obtain ⟨parent, hparent, holder⟩ := table.founded number found hfound
      have hpresent := table.present number found hfound parent hparent
      cases parent with
      | none => exact ⟨_, .nested hfound hparent .top⟩
      | some below =>
        obtain ⟨stack, hstack⟩ := ih below (holder below rfl) hpresent
        exact ⟨_, .nested hfound hparent hstack⟩

end Position

end ChainGrammar
