import ChainGrammar.Proofs.Chain.Calls

/-!
# What the hooks are told

A call on a chain is answered by what is on offer before any hook is asked: a method that no item
offers is unknown, a number of arguments that no item takes is refused, and only otherwise the hooks are told
of the call, once, and decide it (`Chain.dispatches`).

What the hooks are told is seen by hooks that note it (`Hooks.noting`).  They do what the noted hooks
do (`Chain.call_noting`, `Chain.callAll_noting`), so what they note in front of their state
(`notedIn`) is what the noted hooks are told along any run.
-/

set_option autoImplicit false

namespace ChainGrammar

variable {σ τ α : Type}

/-! ## Noting invocations -/

namespace Hooks

/-- The same hooks, with a list of all that they have been told in front of their state. -/
def noting (hooks : Hooks σ τ) : Hooks (List Invocation × σ) τ where
  create := fun noted =>
    let made := hooks.create.run noted.2
    (made.1, noted.1, made.2)
  call := fun invocation target noted =>
    let answered := (hooks.call invocation target).run noted.2
    (answered.1, noted.1 ++ [invocation], answered.2)

end Hooks

/-- What hooks are told in an action on a chain whose hooks note it. -/
def notedIn (action : StateM (List Invocation × σ) α) (state : σ) : List Invocation :=
  (action.run ([], state)).2.1

namespace Chain

variable {chain after : Chain σ τ} {method : String} {args : List Value} {state : σ}

/-- The same chain with hooks that note what they are told. -/
def noting (chain : Chain σ τ) : Chain (List Invocation × σ) τ :=
  ⟨⟨chain.api.tree, chain.api.hooks.noting⟩, chain.target, chain.position⟩

/-- What the hooks of a chain are told of a call: what the first item says that takes it, if one does. -/
def told (chain : Chain σ τ) (method : String) (args : List Value) : List Invocation :=
  ((chain.callable method args.length).take 1).map fun item => chain.invocation item args

theorem told_of_callable_nil (h : chain.callable method args.length = []) : chain.told method args = [] := by
  rw [told, h]
  rfl

theorem told_of_callable_cons {item : Item} {others : List Item}
    (h : chain.callable method args.length = item :: others) :
    chain.told method args = [chain.invocation item args] := by
  rw [told, h]
  rfl

/-- A call does the same where the hooks note what they are told, and one invocation is noted if some item
takes the call. -/
theorem call_noting (chain : Chain σ τ) (method : String) (args : List Value) (noted : List Invocation)
    (state : σ) : (chain.noting.call method args).run (noted, state) =
      (((chain.call method args).run state).1.map Chain.noting, noted ++ chain.told method args,
        ((chain.call method args).run state).2) := by
  cases candidates : chain.matching method with
  | nil =>
    have candidates' : chain.noting.matching method = [] := candidates
    have takers : chain.callable method args.length = [] := by rw [callable, candidates, List.filter_nil]
    rw [call_of_matching_nil candidates, call_of_matching_nil candidates', told_of_callable_nil takers,
      List.append_nil]
    rfl
  | cons candidate rest =>
    have candidates' : chain.noting.matching method = candidate :: rest := candidates
    cases takers : chain.callable method args.length with
    | nil =>
      have takers' : chain.noting.callable method args.length = [] := takers
      rw [call_of_callable_nil candidates takers, call_of_callable_nil candidates' takers',
        told_of_callable_nil takers, List.append_nil]
      rfl
    | cons item others =>
      have takers' : chain.noting.callable method args.length = item :: others := takers
      have hhook : (chain.noting.api.hooks.call (chain.noting.invocation item args)
          chain.noting.target).run (noted, state) =
          (((chain.api.hooks.call (chain.invocation item args) chain.target).run state).1,
            noted ++ [chain.invocation item args],
            ((chain.api.hooks.call (chain.invocation item args) chain.target).run state).2) := rfl
      rw [call_of_cons takers, call_of_cons takers', hhook, told_of_callable_cons takers]
      generalize (chain.api.hooks.call (chain.invocation item args) chain.target).run state = answered
      obtain ⟨reason | target, state'⟩ := answered
      · rfl
      · rfl

/-- The same for calls in turn. -/
theorem callAll_noting (chain : Chain σ τ) (calls : List Call) (noted : List Invocation) (state : σ) :
    (chain.noting.callAll calls).run (noted, state) =
      (((chain.callAll calls).run state).1.map Chain.noting,
        noted ++ notedIn (chain.noting.callAll calls) state, ((chain.callAll calls).run state).2) := by
  induction calls generalizing chain noted state with
  | nil =>
    have hnoted : notedIn (chain.noting.callAll []) state = [] := rfl
    rw [hnoted, List.append_nil]
    rfl
  | cons next rest ih =>
    rw [notedIn, callAll_cons, callAll_cons, callAll_cons, call_noting, call_noting]
    generalize (chain.call next.method next.args).run state = answered
    obtain ⟨error | after, state'⟩ := answered
    · rfl
    · -- what was noted before stands in front of what the other calls add
      change (after.noting.callAll rest).run (noted ++ chain.told next.method next.args, state') =
        (((after.callAll rest).run state').1.map Chain.noting,
          noted ++ ((after.noting.callAll rest).run ([] ++ chain.told next.method next.args, state')).2.1,
          ((after.callAll rest).run state').2)
      rw [ih, ih, List.nil_append, List.append_assoc]

theorem notedIn_call (chain : Chain σ τ) (method : String) (args : List Value) (state : σ) :
    notedIn (chain.noting.call method args) state = chain.told method args := by
  rw [notedIn, call_noting, List.nil_append]

/-- What the hooks are told of calls in turn: of the first one, and of the others if it succeeds. -/
theorem notedIn_callAll_cons (chain : Chain σ τ) (next : Call) (rest : List Call) (state : σ) :
    notedIn (chain.noting.callAll (next :: rest)) state =
      chain.told next.method next.args ++
        match (chain.call next.method next.args).run state with
        | (.error _, _) => []
        | (.ok after, state) => notedIn (after.noting.callAll rest) state := by
  rw [notedIn, callAll_cons, call_noting]
  generalize (chain.call next.method next.args).run state = answered
  obtain ⟨error | after, state'⟩ := answered
  · exact (List.append_nil _).symm
  · change ((after.noting.callAll rest).run ([] ++ chain.told next.method next.args, state')).2.1 = _
    rw [callAll_noting, List.nil_append]

/-! ## What comes of a call -/

/-- Some item offers the method with the given number of parameters. -/
def Takes (chain : Chain σ τ) (method : String) (count : Nat) : Prop :=
  ∃ item ∈ chain.position.items, (chain.api.tree.label item.node).name = method ∧
    (chain.api.tree.label item.node).params.length = count

instance (chain : Chain σ τ) (method : String) (count : Nat) : Decidable (chain.Takes method count) :=
  inferInstanceAs (Decidable (∃ item ∈ chain.position.items,
    (chain.api.tree.label item.node).name = method ∧
      (chain.api.tree.label item.node).params.length = count))

theorem mem_callable {count : Nat} {item : Item} : item ∈ chain.callable method count ↔
    item ∈ chain.position.items ∧ (chain.api.tree.label item.node).name = method ∧
      (chain.api.tree.label item.node).params.length = count := by
  rw [callable, matching, Position.matching, List.mem_filter, List.mem_filter, and_assoc]
  simp only [arity, beq_iff_eq]

theorem callable_eq_nil_iff {count : Nat} :
    chain.callable method count = [] ↔ ¬ chain.Takes method count := by
  rw [List.eq_nil_iff_forall_not_mem]
  constructor
  · rintro h ⟨item, hitem, hname, hparams⟩
    exact h item (mem_callable.2 ⟨hitem, hname, hparams⟩)
  · intro h item hitem
    exact h ⟨item, mem_callable.1 hitem⟩

/-- The first of the items that take a call. -/
theorem Takes.exists_callable {count : Nat} (h : chain.Takes method count) :
    ∃ item others, chain.callable method count = item :: others ∧ item ∈ chain.position.items ∧
      (chain.api.tree.label item.node).name = method ∧
      (chain.api.tree.label item.node).params.length = count := by
  cases takers : chain.callable method count with
  | nil => exact absurd h (callable_eq_nil_iff.1 takers)
  | cons item others => exact ⟨item, others, rfl, mem_callable.1 (takers ▸ List.mem_cons_self)⟩

/-- The methods on offer are those that some item offers. -/
theorem mem_methods : method ∈ chain.methods ↔
    ∃ item ∈ chain.position.items, (chain.api.tree.label item.node).name = method := by
  rw [methods, Position.methods, List.mem_eraseDups, List.mem_map]

theorem matching_eq_nil_iff : chain.matching method = [] ↔ method ∉ chain.methods := by
  rw [matching, Position.matching, List.filter_eq_nil_iff, mem_methods]
  simp only [beq_iff_eq, not_exists, not_and]

/-- A list without repetitions, whatever was repeated. -/
theorem nodup_eraseDups {β : Type} [BEq β] [LawfulBEq β] (l : List β) : l.eraseDups.Nodup := by
  match l with
  | [] => exact List.nodup_nil
  | b :: l =>
    rw [List.eraseDups_cons, List.nodup_cons]
    refine ⟨fun hmem => ?_, nodup_eraseDups (l.filter fun c => !c == b)⟩
    have hfiltered := (List.mem_filter.1 (List.mem_eraseDups.1 hmem)).2
    rw [beq_self_eq_true] at hfiltered
    cases hfiltered
termination_by l.length
decreasing_by exact Nat.lt_succ_of_le (List.length_filter_le ..)

/-- A method that is not on offer is unknown. -/
theorem call_unknown (h : method ∉ chain.methods) (args : List Value) (state : σ) :
    (chain.call method args).run state = (.error (.unknownMethod method chain.methods), state) :=
  call_of_matching_nil (matching_eq_nil_iff.2 h) state

/-- A method on offer that does not take the arguments is refused with a number that it takes. -/
theorem call_arity (offered : method ∈ chain.methods) (misses : ¬ chain.Takes method args.length)
    (state : σ) : ∃ expected, chain.Takes method expected ∧
      (chain.call method args).run state = (.error (.arity method expected args.length), state) := by
  cases candidates : chain.matching method with
  | nil => exact absurd offered (matching_eq_nil_iff.1 candidates)
  | cons candidate others =>
    have hcandidate : candidate ∈ chain.matching method := candidates ▸ List.mem_cons_self
    rw [matching, Position.matching, List.mem_filter, beq_iff_eq] at hcandidate
    exact ⟨chain.arity candidate, ⟨candidate, hcandidate.1, hcandidate.2, rfl⟩,
      call_of_callable_nil candidates (callable_eq_nil_iff.2 misses) state⟩

end Chain

/-- What hooks are told tells a call: its method, its arguments, one for each declared parameter. -/
structure Invocation.Tells (invocation : Invocation) (method : String) (args : List Value) : Prop where
  method : invocation.method = method
  args : invocation.args = args
  fits : invocation.args.length = invocation.params.length
  /-- Every named parameter that is declared has an argument. -/
  arg : ∀ name, Param.named name ∈ invocation.params → ∃ (i : Nat) (value : Value),
    invocation.params[i]? = some (.named name) ∧ invocation.args[i]? = some value ∧
      invocation.arg? name = some value

namespace Invocation

/-- Where there are as many arguments as parameters, every named parameter has one. -/
theorem exists_arg {invocation : Invocation} (fits : invocation.args.length = invocation.params.length)
    {name : String} (declared : Param.named name ∈ invocation.params) :
    ∃ (i : Nat) (value : Value), invocation.params[i]? = some (.named name) ∧
      invocation.args[i]? = some value ∧ invocation.arg? name = some value := by
  have hfound : (invocation.params.findIdx? fun param => param == .named name).isSome = true := by
    rw [List.findIdx?_isSome, List.any_eq_true]
    exact ⟨_, declared, beq_self_eq_true _⟩
  obtain ⟨i, hi⟩ := Option.isSome_iff_exists.1 hfound
  obtain ⟨hlt, hparam, _⟩ := List.findIdx?_eq_some_iff_getElem.1 hi
  obtain ⟨value, hvalue⟩ : ∃ value, invocation.args[i]? = some value :=
    ⟨_, List.getElem?_eq_getElem (fits ▸ hlt)⟩
  refine ⟨i, value, ?_, hvalue, ?_⟩
  · rw [List.getElem?_eq_getElem hlt, beq_iff_eq.1 hparam]
  · rw [arg?, hi, Option.bind_some, hvalue]

end Invocation

namespace Chain

variable {chain : Chain σ τ} {method : String} {args : List Value}

/-- The hooks are told once of a call that some item takes, and the call succeeds if they accept it. -/
theorem call_taken (takes : chain.Takes method args.length) :
    ∃ item ∈ chain.position.items, chain.told method args = [chain.invocation item args] ∧
      (chain.invocation item args).Tells method args ∧
      ∀ state, (∃ after, ((chain.call method args).run state).1 = .ok after) ↔
        ∃ target, ((chain.api.hooks.call (chain.invocation item args) chain.target).run state).1 =
          .ok target := by
  obtain ⟨item, others, takers, hitem, hname, hparams⟩ := takes.exists_callable
  have fits : (chain.invocation item args).args.length = (chain.invocation item args).params.length :=
    hparams.symm
  refine ⟨item, hitem, told_of_callable_cons takers,
    ⟨hname, rfl, fits, fun _ => Invocation.exists_arg fits⟩, fun state => ?_⟩
  rw [call_of_cons takers]
  generalize (chain.api.hooks.call (chain.invocation item args) chain.target).run state = answered
  obtain ⟨reason | target, state'⟩ := answered
  · constructor
    · rintro ⟨_, h⟩
      cases h
    · rintro ⟨_, h⟩
      cases h
  · exact ⟨fun _ => ⟨target, rfl⟩, fun _ => ⟨_, rfl⟩⟩

/-- Only the hooks can refuse a call that some item takes. -/
theorem not_takes_of_error {error : InvokeError} {state : σ}
    (h : ((chain.call method args).run state).1 = .error error)
    (own : ∀ reason, error ≠ .hook method reason) : ¬ chain.Takes method args.length := by
  intro takes
  obtain ⟨item, others, takers, _⟩ := takes.exists_callable
  rw [call_of_cons takers] at h
  generalize (chain.api.hooks.call (chain.invocation item args) chain.target).run state = answered at h
  obtain ⟨reason | target, state'⟩ := answered
  · exact own reason (Except.error.inj h).symm
  · cases h

/-- Exactly the methods on offer can be called, and the hooks are told exactly of the calls that fit. -/
structure Dispatches (chain : Chain σ τ) : Prop where
  /-- Hooks that note what they are told do the same otherwise. -/
  noting : ∀ method args noted state, (chain.noting.call method args).run (noted, state) =
    (((chain.call method args).run state).1.map Chain.noting,
      noted ++ notedIn (chain.noting.call method args) state, ((chain.call method args).run state).2)
  once : chain.methods.Nodup
  has : ∀ method, chain.has method = true ↔ method ∈ chain.methods
  /-- Every method on offer takes some arguments. -/
  offered : ∀ method ∈ chain.methods, ∃ args : List Value, chain.Takes method args.length
  unknown : ∀ method args state,
    (∃ named available, ((chain.call method args).run state).1 = .error (.unknownMethod named available)) ↔
      method ∉ chain.methods
  arity : ∀ method args state,
    (∃ named expected got, ((chain.call method args).run state).1 = .error (.arity named expected got)) ↔
      method ∈ chain.methods ∧ ¬ chain.Takes method args.length
  /-- The hooks are told nothing of a call that does not fit, and nothing happens. -/
  refused : ∀ method args, ¬ chain.Takes method args.length → ∀ state,
    notedIn (chain.noting.call method args) state = [] ∧
      ∃ error, (chain.call method args).run state = (.error error, state)
  /-- The hooks are told once of a call that fits, as an item offers it, and decide it. -/
  taken : ∀ method args, chain.Takes method args.length → ∃ item ∈ chain.position.items,
    (chain.invocation item args).Tells method args ∧
    ∀ state, notedIn (chain.noting.call method args) state = [chain.invocation item args] ∧
      ((∃ after, ((chain.call method args).run state).1 = .ok after) ↔
        ∃ target, ((chain.api.hooks.call (chain.invocation item args) chain.target).run state).1 =
          .ok target)

theorem dispatches (chain : Chain σ τ) : chain.Dispatches where
  noting := by
    intro method args noted state
    rw [call_noting, notedIn_call]
  once := nodup_eraseDups _
  has := by
    intro method
    rw [Chain.has, Bool.not_eq_true', ← Bool.not_eq_true, List.isEmpty_iff, matching_eq_nil_iff, not_not]
  offered := by
    intro method h
    obtain ⟨item, hitem, hname⟩ := mem_methods.1 h
    exact ⟨List.replicate (chain.arity item) (.bool true), item, hitem, hname,
      List.length_replicate.symm⟩
  unknown := by
    intro method args state
    refine ⟨?_, fun missing => ⟨method, chain.methods, by rw [call_unknown missing]⟩⟩
    rintro ⟨named, available, h⟩ offered
    obtain ⟨expected, _, hcall⟩ :=
      call_arity offered (not_takes_of_error h fun _ heq => by cases heq) state
    rw [hcall] at h
    cases h
  arity := by
    intro method args state
    constructor
    · rintro ⟨named, expected, got, h⟩
      refine ⟨by_contra fun missing => ?_, not_takes_of_error h fun _ heq => by cases heq⟩
      rw [call_unknown missing] at h
      cases h
    · rintro ⟨offered, misses⟩
      obtain ⟨expected, _, hcall⟩ := call_arity offered misses state
      exact ⟨method, expected, args.length, by rw [hcall]⟩
  refused := by
    intro method args misses state
    have takers := callable_eq_nil_iff.2 misses
    exact ⟨by rw [notedIn_call, told_of_callable_nil takers], call_of_nil takers state⟩
  taken := by
    intro method args takes
    obtain ⟨item, hitem, htold, tells, decided⟩ := call_taken takes
    exact ⟨item, hitem, tells, fun state => ⟨by rw [notedIn_call, htold], decided state⟩⟩

/-! ## Transcripts -/

/-- Calls on a chain whose hooks keep a transcript: those up to the first refusal are made, in the order given,
and neither the refused one nor any after it is told to the hooks. -/
structure Records (chain : Chain σ Transcript) (calls : List Call) (state : σ) (made left : List Call)
    (after : Chain σ Transcript) : Prop where
  split : calls = made ++ left
  reached : (chain.callAll made).run state = (.ok after, state)
  transcript : after.target.calls = chain.target.calls ++ made
  told : (notedIn (chain.noting.callAll calls) state).map Invocation.toCall = made
  refused : ∀ next rest, left = next :: rest → ∃ error,
    (after.call next.method next.args).run state = (.error error, state) ∧
      (chain.callAll calls).run state = (.error error, state)

/-- A call that some item takes is put at the end of the transcript. -/
theorem call_transcript {chain : Chain σ Transcript} (hooks : chain.api.hooks = .transcript) {next : Call}
    (takes : chain.Takes next.method next.args.length) (state : σ) :
    ∃ after, (chain.call next.method next.args).run state = (.ok after, state) ∧
      after.api.hooks = .transcript ∧ after.target.calls = chain.target.calls ++ [next] ∧
      (chain.told next.method next.args).map Invocation.toCall = [next] := by
  obtain ⟨item, others, takers, _, hname, _⟩ := takes.exists_callable
  have htoCall : (chain.invocation item next.args).toCall = next := by
    rw [Invocation.toCall, invocation, hname]
  have hcall := call_of_cons takers state
  rw [hooks] at hcall
  refine ⟨_, hcall, hooks, ?_, ?_⟩
  · rw [← htoCall]
    rfl
  · rw [told_of_callable_cons takers, List.map_singleton, htoCall]

theorem exists_records {chain : Chain σ Transcript} (hooks : chain.api.hooks = .transcript)
    (calls : List Call) (state : σ) : ∃ made left after, chain.Records calls state made left after := by
  induction calls generalizing chain with
  | nil =>
    refine ⟨[], [], chain, rfl, rfl, (List.append_nil _).symm, rfl, ?_⟩
    intro next rest h
    cases h
  | cons next rest ih =>
    by_cases takes : chain.Takes next.method next.args.length
    · obtain ⟨middle, hcall, hooks', htarget, htold⟩ := call_transcript hooks takes state
      obtain ⟨made, left, after, records⟩ := ih hooks'
      refine ⟨next :: made, left, after, ?_, ?_, ?_, ?_, ?_⟩
      · rw [records.split, List.cons_append]
      · rw [callAll_cons, hcall]
        exact records.reached
      · rw [records.transcript, htarget, List.append_assoc, List.singleton_append]
      · rw [notedIn_callAll_cons, hcall, List.map_append, htold]
        exact congrArg (next :: ·) records.told
      · intro refused others hleft
        obtain ⟨error, hrefused, herror⟩ := records.refused refused others hleft
        refine ⟨error, hrefused, ?_⟩
        rw [callAll_cons, hcall]
        exact herror
    · have takers := callable_eq_nil_iff.2 takes
      obtain ⟨error, hcall⟩ := call_of_nil takers state
      refine ⟨[], next :: rest, chain, rfl, rfl, (List.append_nil _).symm, ?_, ?_⟩
      · rw [notedIn_callAll_cons, hcall, told_of_callable_nil takers]
        rfl
      · intro refused others hleft
        cases hleft
        refine ⟨error, hcall, ?_⟩
        rw [callAll_cons, hcall]

/-- Whatever led to a position, the methods on offer there are those that can be called, and the hooks are told
exactly of the calls that fit; a transcript that was begun with a chain holds the calls that succeeded, in order. -/
theorem dispatch_exact :
    (∀ {σ τ : Type} (chain : Chain σ τ), chain.Dispatches) ∧
      ∀ {σ : Type} (tree : Tree) (entry : Nat) (calls : List Call) (state : σ), ∃ made left after,
        (((Api.mk tree .transcript).chainAt entry).run state).1.Records calls state made left after ∧
          after.target.calls = made := by
  refine ⟨dispatches, fun tree entry calls state => ?_⟩
  have hooks : (((Api.mk tree .transcript).chainAt entry).run state).1.api.hooks = .transcript := rfl
  obtain ⟨made, left, after, records⟩ := exists_records hooks calls state
  exact ⟨made, left, after, records, records.transcript⟩

/-- A chain at the beginning of a term in brackets. -/
def bracketStart : Chain Unit Transcript := (((Api.mk bracketTree .transcript).chainAt 1).run ()).1

/-- Brackets are opened with one argument: a call without it is refused, as one of another method is, and a call with
it is told to the hooks and stands in the transcript, before the calls that are refused. -/
theorem dispatch_exact_brackets :
    bracketStart.Takes "open" 1 ∧ ¬ bracketStart.Takes "open" 0 ∧ "shut" ∉ bracketStart.methods ∧
      (∃ item ∈ bracketStart.position.items, notedIn (bracketStart.noting.call "open" [.int 1]) () =
        [bracketStart.invocation item [.int 1]]) ∧
      notedIn (bracketStart.noting.call "open" []) () = [] ∧
      (∃ named expected got, ((bracketStart.call "open" []).run ()).1 = .error (.arity named expected got)) ∧
      (∃ named available,
        ((bracketStart.call "shut" []).run ()).1 = .error (.unknownMethod named available)) ∧
      ∃ made left after, bracketStart.Records [⟨"open", [.int 1]⟩, ⟨"shut", []⟩] () made left after ∧
        after.target.calls = made := by
  have dispatches := dispatch_exact.1 bracketStart
  have takes : bracketStart.Takes "open" 1 := by decide +kernel
  have misses : ¬ bracketStart.Takes "open" 0 := by decide +kernel
  have missing : "shut" ∉ bracketStart.methods := by decide +kernel
  have offered : "open" ∈ bracketStart.methods := by decide +kernel
  obtain ⟨item, hitem, _, hnoted⟩ := dispatches.taken "open" [.int 1] takes
  exact ⟨takes, misses, missing, ⟨item, hitem, (hnoted ()).1⟩, (dispatches.refused "open" [] misses ()).1,
    (dispatches.arity "open" [] ()).2 ⟨offered, misses⟩, (dispatches.unknown "shut" [] ()).2 missing,
    dispatch_exact.2 bracketTree 1 _ ()⟩

end Chain

end ChainGrammar
