import ChainGrammar.Chain.Hooks
import ChainGrammar.Expression.Error
import ChainGrammar.Position.Walk
import ChainGrammar.Text.Record

/-!
# Chains

A compiled grammar with hooks is an API.  A chain begins at one of its entry rules, carries an object
made by the hooks, and moves from position to position by calls.

Where several alternatives offer the called method, all of them that take as many arguments as given
stay open, and the hooks see the first one.  A refused call ends the chain.
-/

set_option autoImplicit false

namespace ChainGrammar

/-- Why a chain cannot go on or end. -/
inductive InvokeError where
  | unknownMethod (method : String) (available : List String)
  | arity (method : String) (expected got : Nat)
  | incomplete (expected : List String)
  /-- The hooks refused the call, for the given reason. -/
  | hook (method reason : String)
  deriving DecidableEq, Inhabited

/-- The wording of a refusal. -/
def InvokeError.message : InvokeError → String
  | .unknownMethod method available =>
    "method '" ++ method ++ "' is not available here; expected one of " ++ Text.listed available
  | .arity method expected got =>
    "method '" ++ method ++ "' takes " ++ toString expected ++ " argument(s), got " ++ toString got
  | .incomplete expected => "chain is incomplete; expected one of " ++ Text.listed expected
  | .hook method _ => "hook failed in method '" ++ method ++ "'"

/-- Why an expression cannot be run on a chain. -/
inductive RunError where
  | expression (error : ExpressionError)
  | invoke (error : InvokeError)
  deriving DecidableEq, Inhabited

/-- A compiled grammar with hooks. -/
structure Api (σ τ : Type) where
  tree : Tree
  hooks : Hooks σ τ

/-- A position of an API with the object that the calls so far have made. -/
structure Chain (σ τ : Type) where
  api : Api σ τ
  target : τ
  position : Position

variable {σ τ : Type}

namespace Api

/-- A chain at the beginning of the entry rule at the given node. -/
def chainAt (api : Api σ τ) (entry : Nat) : StateM σ (Chain σ τ) := do
  let target ← api.hooks.create
  return ⟨api, target, Position.start api.tree entry⟩

/-- A chain at the beginning of the first entry rule. -/
def start? (api : Api σ τ) : Option (StateM σ (Chain σ τ)) :=
  api.tree.entryPoints.head?.map api.chainAt

/-- A chain at the beginning of the entry rule of the given name. -/
def startAt? (api : Api σ τ) (rule : String) : Option (StateM σ (Chain σ τ)) :=
  (api.tree.entryPoint? rule).map api.chainAt

end Api

namespace Chain

/-- The names of the methods on offer, in the order of the alternatives. -/
def methods (chain : Chain σ τ) : List String := chain.position.methods chain.api.tree

/-- The items that offer the method of the given name. -/
def matching (chain : Chain σ τ) (method : String) : List Item :=
  chain.position.matching chain.api.tree method

/-- Is the method on offer? -/
def has (chain : Chain σ τ) (method : String) : Bool := !(chain.matching method).isEmpty

/-- May the chain end here? -/
def isComplete (chain : Chain σ τ) : Bool := chain.position.complete

/-- The number of arguments that an item takes. -/
def arity (chain : Chain σ τ) (item : Item) : Nat :=
  (chain.api.tree.label item.node).params.length

/-- The items that offer a method with the given number of arguments. -/
def callable (chain : Chain σ τ) (method : String) (count : Nat) : List Item :=
  (chain.matching method).filter fun item => chain.arity item == count

/-- What the hooks are told of a call that an item offers. -/
def invocation (chain : Chain σ τ) (item : Item) (args : List Value) : Invocation :=
  let label := chain.api.tree.label item.node
  ⟨label.name, label.owner, label.params, args⟩

/-- Call a method. -/
def call (chain : Chain σ τ) (method : String) (args : List Value) :
    StateM σ (Except InvokeError (Chain σ τ)) :=
  match chain.matching method with
  | [] => pure (.error (.unknownMethod method chain.methods))
  | candidate :: _ =>
    match chain.callable method args.length with
    | [] => pure (.error (.arity method (chain.arity candidate) args.length))
    | item :: others => do
      match ← chain.api.hooks.call (chain.invocation item args) chain.target with
      | .error reason => return .error (.hook method reason)
      | .ok target =>
        return .ok { chain with
          target, position := Position.after chain.api.tree chain.position (item :: others) }

/-- Call methods in turn, up to the first refusal. -/
def callAll (chain : Chain σ τ) : List Call → StateM σ (Except InvokeError (Chain σ τ))
  | [] => pure (.ok chain)
  | next :: rest => do
    match ← chain.call next.method next.args with
    | .error error => return .error error
    | .ok chain => chain.callAll rest

/-- Call the methods of an expression in turn; nothing is called if it cannot be read. -/
def run (chain : Chain σ τ) (input : String) : StateM σ (Except RunError (Chain σ τ)) :=
  match Expression.read input with
  | .error error => pure (.error (.expression error))
  | .ok calls => do
    match ← chain.callAll calls with
    | .error error => return .error (.invoke error)
    | .ok chain => return .ok chain

/-- The object of a chain that may end here. -/
def finish (chain : Chain σ τ) : Except InvokeError τ :=
  if chain.isComplete then .ok chain.target else .error (.incomplete chain.methods)

end Chain

end ChainGrammar
