import ChainGrammar.Proofs.Chain.Invocations
import ChainGrammar.Proofs.Expression.Composition

/-!
# Running expressions on a chain

An expression is read before anything is called.  What cannot be read is therefore told to no hook, and what
can be read makes its calls in turn, so that running two expressions behind each other is running the one
expression that they make with a joint between them (`Expression.read_join`, `Chain.callAll_append`).
-/

set_option autoImplicit false

namespace ChainGrammar.Chain

variable {σ τ : Type} {chain : Chain σ τ} {input first second : String} {calls others : List Call}

/-- Run an expression, and a second one where the first has led. -/
def runBoth (chain : Chain σ τ) (first second : String) : StateM σ (Except RunError (Chain σ τ)) := do
  match ← chain.run first with
  | .error error => return .error error
  | .ok after => after.run second

theorem runBoth_run (chain : Chain σ τ) (first second : String) (state : σ) :
    (chain.runBoth first second).run state =
      match (chain.run first).run state with
      | (.error error, state) => (.error error, state)
      | (.ok after, state) => (after.run second).run state := by
  rw [runBoth, StateT.run_bind]
  rcases (chain.run first).run state with ⟨answer, state'⟩
  cases answer <;> rfl

/-- Calls in a row are made by making the first ones and then the others. -/
theorem callAll_append (chain : Chain σ τ) (calls others : List Call) (state : σ) :
    (chain.callAll (calls ++ others)).run state =
      match (chain.callAll calls).run state with
      | (.error error, state) => (.error error, state)
      | (.ok after, state) => (after.callAll others).run state := by
  induction calls generalizing chain state with
  | nil => rfl
  | cons next rest ih =>
    rw [List.cons_append, callAll_cons, callAll_cons]
    generalize (chain.call next.method next.args).run state = answered
    obtain ⟨error | after, state'⟩ := answered
    · rfl
    · exact ih after state'

/-- The calls of an expression that is read are made in turn. -/
theorem run_of_read (h : Expression.read input = .ok calls) (state : σ) :
    (chain.run input).run state =
      (((chain.callAll calls).run state).1.mapError .invoke, ((chain.callAll calls).run state).2) := by
  rw [run, h]
  simp only [StateT.run_bind]
  rcases (chain.callAll calls).run state with ⟨answer, state'⟩
  cases answer <;> rfl

/-- Nothing is called where the expression cannot be read. -/
theorem run_of_read_error {error : ExpressionError} (h : Expression.read input = .error error) (state : σ) :
    (chain.run input).run state = (.error (.expression error), state) := by
  rw [run, h]
  rfl

theorem notedIn_run_of_read (h : Expression.read input = .ok calls) (state : σ) :
    notedIn (chain.noting.run input) state = notedIn (chain.noting.callAll calls) state := by
  rw [notedIn, notedIn, run_of_read h]

/-- Hooks that note what they are told do the same otherwise when an expression is run. -/
theorem run_noting (chain : Chain σ τ) (input : String) (noted : List Invocation) (state : σ) :
    (chain.noting.run input).run (noted, state) =
      (((chain.run input).run state).1.map Chain.noting,
        noted ++ notedIn (chain.noting.run input) state, ((chain.run input).run state).2) := by
  cases h : Expression.read input with
  | error error =>
    have hnoted : notedIn (chain.noting.run input) state = [] := by
      rw [notedIn, run_of_read_error h]
    rw [hnoted, run_of_read_error h, run_of_read_error h, List.append_nil]
    rfl
  | ok calls =>
    rw [notedIn_run_of_read h, run_of_read h, run_of_read h, callAll_noting]
    generalize (chain.callAll calls).run state = answered
    obtain ⟨error | after, state'⟩ := answered
    · rfl
    · rfl

/-- A joined expression is run by running the first one and then the second one. -/
theorem run_of_reads {joined : String} (h₁ : Expression.read first = .ok calls)
    (h₂ : Expression.read second = .ok others) (h : Expression.read joined = .ok (calls ++ others))
    (state : σ) : (chain.run joined).run state = (chain.runBoth first second).run state := by
  rw [runBoth_run, run_of_read h, run_of_read h₁, callAll_append]
  generalize (chain.callAll calls).run state = answered
  obtain ⟨error | after, state'⟩ := answered
  · rfl
  · exact (run_of_read h₂ state').symm

/-- One expression is run as two others are in turn: with the same answer, at the same position with the same
object or with the same refusal, and with the same told to the hooks on the way. -/
structure Runs (joined first second : String) : Prop where
  answer : ∀ {σ τ : Type} (chain : Chain σ τ) (state : σ),
    (chain.run joined).run state = (chain.runBoth first second).run state
  told : ∀ {σ τ : Type} (chain : Chain σ τ) (state : σ),
    notedIn (chain.noting.run joined) state = notedIn (chain.noting.run first) state ++
      match (chain.run first).run state with
      | (.error _, _) => []
      | (.ok after, state) => notedIn (after.noting.run second) state

theorem runs_of_reads {joined : String} (h₁ : Expression.read first = .ok calls)
    (h₂ : Expression.read second = .ok others) (h : Expression.read joined = .ok (calls ++ others)) :
    Runs joined first second where
  answer := fun _ state => run_of_reads h₁ h₂ h state
  told := by
    intro σ τ chain state
    rw [notedIn, run_of_reads h₁ h₂ h, runBoth_run, run_noting]
    generalize (chain.run first).run state = answered
    obtain ⟨error | after, state'⟩ := answered
    · exact (List.append_nil _).symm
    · change ((after.noting.run second).run ([] ++ notedIn (chain.noting.run first) state, state')).2.1 = _
      rw [run_noting, List.nil_append]

/-- An expression that cannot be read is refused before any hook is told of anything. -/
structure Untouched (bad : String) (error : ExpressionError) : Prop where
  answer : ∀ {σ τ : Type} (chain : Chain σ τ) (state : σ),
    (chain.run bad).run state = (.error (.expression error), state)
  told : ∀ {σ τ : Type} (chain : Chain σ τ) (state : σ), notedIn (chain.noting.run bad) state = []

/-- Two expressions with a joint between them are one expression, with the calls of both, and running it is
running them in turn; a text that cannot be read calls nothing. -/
theorem run_join (h₁ : Expression.read first = .ok calls) (h₂ : Expression.read second = .ok others) :
    Expression.read (first ++ Expression.joint second ++ second) = .ok (calls ++ others) ∧
      Runs (first ++ Expression.joint second ++ second) first second ∧
      ∀ bad error, Expression.read bad = .error error → Untouched bad error := by
  have joined := Expression.read_join h₁ h₂
  refine ⟨joined, runs_of_reads h₁ h₂ joined, fun bad error h => ⟨?_, ?_⟩⟩
  · intro σ τ chain state
    exact run_of_read_error h state
  · intro σ τ chain state
    rw [notedIn, run_of_read_error h]

/-- An expression with a dot, quotes and parentheses in its texts, one that brings its dot along, and one that
does not; the last of three calls is broken off. -/
theorem run_join_quoted :
    Expression.read " select ( \"a.b)\", '\\'(.' ) " = .ok [⟨"select", [.string "a.b)", .string "'(."]⟩] ∧
      Expression.read "\n.is(1)" = .ok [⟨"is", [.int 1]⟩] ∧
      Expression.read " select ( \"a.b)\", '\\'(.' ) \n.is(1)" =
        .ok [⟨"select", [.string "a.b)", .string "'(."]⟩, ⟨"is", [.int 1]⟩] ∧
      Expression.read "is(1).\n is(1)" = .ok [⟨"is", [.int 1]⟩, ⟨"is", [.int 1]⟩] ∧
      Runs "is(1).\n is(1)" "is(1)" "\n is(1)" ∧
      ∃ error, Expression.read "is(1).is(2).is(" = .error error ∧ Untouched "is(1).is(2).is(" error :=
  have quoted : Expression.read " select ( \"a.b)\", '\\'(.' ) " =
      .ok [⟨"select", [.string "a.b)", .string "'(."]⟩] := by decide +kernel
  have dotted : Expression.read "\n.is(1)" = .ok [⟨"is", [.int 1]⟩] := by decide +kernel
  have plain : Expression.read "is(1)" = .ok [⟨"is", [.int 1]⟩] := by decide +kernel
  have blank : Expression.read "\n is(1)" = .ok [⟨"is", [.int 1]⟩] := by decide +kernel
  have broken : Expression.read "is(1).is(2).is(" =
      .error ⟨2, "is(1).is(2).is(".toList, ⟨.closingParenthesis, []⟩⟩ := by decide +kernel
  ⟨quoted, dotted, (run_join quoted dotted).1, (run_join plain blank).1, (run_join plain blank).2.1, _,
    broken, (run_join plain blank).2.2 _ _ broken⟩

end ChainGrammar.Chain
