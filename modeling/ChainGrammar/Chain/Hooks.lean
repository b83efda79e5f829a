import ChainGrammar.Call
import ChainGrammar.Unfolding

/-!
# Hooks

What a program attaches to a grammar: how the object that a chain carries is made, and what a call
does to it.  Both may use a state of the program's own, and a call may be refused.
-/

set_option autoImplicit false

namespace ChainGrammar

/-- A call as hooks see it: the method, the rule that declares it, its parameters and the arguments. -/
structure Invocation where
  method : String
  rule : String
  params : List Param
  args : List Value
  deriving DecidableEq, Inhabited

namespace Invocation

/-- The argument of the first parameter of the given name. -/
def arg? (invocation : Invocation) (name : String) : Option Value :=
  (invocation.params.findIdx? fun param => param == .named name).bind fun i => invocation.args[i]?

/-- The call without what the grammar says about it. -/
def toCall (invocation : Invocation) : Call := ⟨invocation.method, invocation.args⟩

end Invocation

/-- What a chain carries and what calls do to it, over a state `σ` of the program's own. -/
structure Hooks (σ τ : Type) where
  /-- Make the object of a new chain. -/
  create : StateM σ τ
  /-- Let a call change the object, or refuse the call with a text. -/
  call : Invocation → τ → StateM σ (Except String τ)

namespace Hooks

variable {σ τ : Type}

/-- Hooks that accept every call and leave the object alone. -/
def ofCreate (create : StateM σ τ) : Hooks σ τ := ⟨create, fun _ target => pure (.ok target)⟩

/-- Hooks that record every call in a transcript. -/
def transcript : Hooks σ Transcript where
  create := pure {}
  call := fun invocation target => pure (.ok (target.record invocation.toCall))

end Hooks

end ChainGrammar
