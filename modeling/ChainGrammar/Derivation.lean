import ChainGrammar.Call
import ChainGrammar.Unfolding

/-!
# What rules derive

The call sequences that a list of rules stands for, said on the rules alone: a rule yields what one of
its definitions yields, a symbol yields one call with as many arguments as it declares, a reference
yields consecutive occurrences of its rule, and what is optional may yield nothing.

What an occurrence of a rule is allowed depends on where it stands.  `Derives` leaves this open: it
takes a relation `into` that says in which setting a rule may occur within another setting.  Two
readings use it.  In `DerivesWithin` a setting is a path of rules with a depth: a rule off the path
extends it, a rule on the path cuts the path back to itself and goes one deeper, down to a limit.
`DerivesFreely` knows no settings, which is the ordinary reading of a context-free grammar.
-/

set_option autoImplicit false

namespace ChainGrammar

/-- May a reference stand for this many consecutive occurrences? -/
def Repeat.Admits : Repeat → Nat → Prop
  | .once, count => count = 1
  | .times limit, count => 1 ≤ count ∧ count ≤ limit.toNat
  | .unbounded, count => 1 ≤ count

/-- What a call sequence can be derived from. -/
inductive Goal where
  /-- The rule of the given name. -/
  | rule (name : String)
  /-- The rest of a definition. -/
  | segments (definition : Definition)
  /-- So many consecutive occurrences of the rule of the given name. -/
  | occurrences (name : String) (count : Nat)

/-- The call sequences of a goal in a setting. -/
inductive Derives {ς : Type} (rules : List Rule) (into : ς → String → ς → Prop) :
    ς → Goal → List Call → Prop where
  | rule {setting : ς} {name : String} {rule : Rule} {definition : Definition} {calls : List Call}
      (found : Rules.find? rules name = some rule) (member : definition ∈ rule.definitions)
      (yields : Derives rules into setting (.segments definition) calls) :
      Derives rules into setting (.rule name) calls
  | done {setting : ς} : Derives rules into setting (.segments []) []
  | symbol {setting : ς} {name : String} {params : List String} {optional : Bool}
      {rest : Definition} {args : List Value} {calls : List Call}
      (fits : args.length = params.length + (Unfolding.declaredParams rest).length)
      (yields : Derives rules into setting (.segments rest) calls) :
      Derives rules into setting (.segments (.symbol name params optional :: rest))
        (⟨name, args⟩ :: calls)
  | reference {setting : ς} {name : String} {optional : Bool} {repeats : Repeat}
      {rest : Definition} {count : Nat} {first others : List Call} (admits : repeats.Admits count)
      (occur : Derives rules into setting (.occurrences name count) first)
      (yields : Derives rules into setting (.segments rest) others) :
      Derives rules into setting (.segments (.reference name optional repeats :: rest))
        (first ++ others)
  | skip {setting : ς} {segment : Segment} {rest : Definition} {calls : List Call}
      (omissible : segment.isOptional = true ∨ segment.isAnchor = false)
      (yields : Derives rules into setting (.segments rest) calls) :
      Derives rules into setting (.segments (segment :: rest)) calls
  | enough {setting : ς} {name : String} : Derives rules into setting (.occurrences name 0) []
  | another {setting inner : ς} {name : String} {count : Nat} {first others : List Call}
      (enters : into setting name inner) (yields : Derives rules into inner (.rule name) first)
      (occur : Derives rules into setting (.occurrences name count) others) :
      Derives rules into setting (.occurrences name (count + 1)) (first ++ others)

/-- The rules that are being expanded, newest first, and how often the path to here was cut back. -/
structure Setting where
  path : List String
  depth : Nat
  deriving DecidableEq

/-- A rule off the path extends it; a rule on the path cuts it back and counts towards the limit. -/
inductive Setting.Into (limit : Nat) : Setting → String → Setting → Prop where
  | extend {path : List String} {depth : Nat} {name : String} (off : name ∉ path) :
      Into limit ⟨path, depth⟩ name ⟨name :: path, depth⟩
  | cut {newer older : List String} {depth : Nat} {name : String} (first : name ∉ newer)
      (within : depth + 1 ≤ limit) :
      Into limit ⟨newer ++ name :: older, depth⟩ name ⟨name :: older, depth + 1⟩

/-- The calls can be derived from an entry rule with at most `limit` nested cuts. -/
def DerivesWithin (rules : List Rule) (limit : Nat) (entry : String) (calls : List Call) : Prop :=
  Derives rules (Setting.Into limit) ⟨[entry], 0⟩ (.rule entry) calls

/-- The calls can be derived from an entry rule when rules may nest in any way. -/
def DerivesFreely (rules : List Rule) (entry : String) (calls : List Call) : Prop :=
  Derives rules (fun (_ : Unit) _ _ => True) () (.rule entry) calls

end ChainGrammar
