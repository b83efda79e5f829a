import ChainGrammar.Proofs.Position.Machine

/-!
# Runs of the plain machine

`Plain.Runs` says that the plain machine gets from a state to its end by the given calls.  It reads a
run from its front, which is how derivations are read, while `Plain.After` adds to its end.  For whole
runs the two say the same (`Plain.complete_iff_runs`).
-/

set_option autoImplicit false

namespace ChainGrammar

namespace Plain

/-- From the state the machine gets to its end by the calls. -/
inductive Runs (tree : Tree) : State → List Call → Prop where
  | complete : Runs tree .complete []
  | silent {first second : State} {calls : List Call} (move : Silent tree first second)
      (runs : Runs tree second calls) : Runs tree first calls
  | call {node : Nat} {stack : List Frame} {next : Call} {rest : List Call}
      (accepts : Accepts tree node next) (runs : Runs tree (.behind node stack) rest) :
      Runs tree (.before node stack) (next :: rest)

variable {tree : Tree} {entry : Nat} {done calls : List Call} {state : State}

/-- What runs after the calls that have been made runs from the beginning with these calls. -/
theorem After.runs (h : After tree entry done state) (runs : Runs tree state calls) :
    Runs tree (.before entry []) (done ++ calls) := by
  induction h generalizing calls with
  | start => exact runs
  | silent _ move ih => exact ih (.silent move runs)
  | @call done node stack name owner params optional args _ method fits ih =>
    have accepts : Accepts tree node ⟨name, args⟩ := by
      simp [Accepts, method, Label.isMethod, Label.name, Label.params, fits]
    rw [List.append_assoc, List.singleton_append]
    exact ih (.call accepts runs)

/-- A run from a state that the machine can be in takes it to its end. -/
theorem Runs.after (runs : Runs tree state calls) (h : After tree entry done state) :
    After tree entry (done ++ calls) .complete := by
  induction runs generalizing done with
  | complete =>
    rw [List.append_nil]
    exact h
  | silent move _ ih => exact ih (.silent h move)
  | @call node stack next rest accepts _ ih =>
    have hnext : After tree entry (done ++ [next]) (.behind node stack) :=
      after_append_iff.2 ⟨node, stack, h, accepts, .refl⟩
    have happend := ih hnext
    rwa [List.append_assoc, List.singleton_append] at happend

/-- The machine can be at its end after the calls that run from its beginning. -/
theorem complete_iff_runs :
    Complete tree entry calls ↔ Runs tree (.before entry []) calls := by
  constructor
  · intro h
    have hruns := After.runs h .complete
    rwa [List.append_nil] at hruns
  · exact fun runs => runs.after .start

end Plain

end ChainGrammar
