import ChainGrammar.Options
import ChainGrammar.Tree

/-!
# The tree of a list of rules

A list of rules has a tree, which lays out its unfolded entry rules, or else a fault.  The faults are
looked for in a fixed order: no rule at all, an empty definition, an undefined reference, no rule that
could be an entry, an undefined main rule.
-/

set_option autoImplicit false

namespace ChainGrammar

/-- Why a list of rules has no tree. -/
inductive RuleError where
  | noRules
  /-- Every rule is used by another; the names run along a cycle of references. -/
  | noEntryPoint (cycle : List String)
  | undefinedReference (rule reference : String)
  | emptyDefinition (rule : String) (index : Nat)
  | undefinedMainRule (name : String)
  deriving DecidableEq, Inhabited

/-- The wording of a fault. -/
def RuleError.message : RuleError → String
  | .noRules => "no rules defined; at least one rule is required"
  | .noEntryPoint cycle =>
    "no entry point: every rule is referenced by another rule (cycle: " ++
      String.intercalate " -> " cycle ++ ")"
  | .undefinedReference rule reference =>
    "undefined rule reference '" ++ reference ++ "' in rule '" ++ rule ++ "'"
  | .emptyDefinition rule index =>
    "definition " ++ toString index ++ " of rule '" ++ rule ++ "' is empty"
  | .undefinedMainRule name => "main rule '" ++ name ++ "' is not defined"

namespace Rules

/-- The names of the entry rules: the main rule, then the other top rules in authoring order. -/
def entryNames (rules : List Rule) (options : Options) : Except RuleError (List String) :=
  let top := names (topRules rules)
  if top.isEmpty then .error (.noEntryPoint (cycle rules))
  else
    match options.mainRule with
    | none => .ok top
    | some main =>
      if (find? rules main).isSome then .ok (main :: top.filter fun name => name != main)
      else .error (.undefinedMainRule main)

end Rules

/-- The tree of a list of rules, or the first fault. -/
def Tree.ofRules (rules : List Rule) (options : Options) : Except RuleError Tree :=
  if rules.isEmpty then .error .noRules
  else
    match Rules.emptyDefinition? rules with
    | some (rule, index) => .error (.emptyDefinition rule index)
    | none =>
      match Rules.undefinedReference? rules with
      | some (rule, reference) => .error (.undefinedReference rule reference)
      | none =>
        match Rules.entryNames rules options with
        | .error fault => .error fault
        | .ok entries =>
          .ok (Tree.ofEntries options.maxDepth (entries.map (Unfolding.ofEntry rules)))

end ChainGrammar
