import ChainGrammar.Rule

/-!
# References between rules

What a list of rules says about itself: which name is undefined, which rules no other rule uses,
and, where every rule is used by another, a cycle of references that explains it.

The search for a cycle walks down the references along a path of distinct rules.  Each step down
leaves fewer rules off the path (`unvisited_cons_lt`), which is also what ends the unfolding of
rules.
-/

set_option autoImplicit false

namespace ChainGrammar.Rules

/-- The rule of the given name. -/
def find? (rules : List Rule) (name : String) : Option Rule :=
  rules.find? fun rule => rule.name == name

/-- The names of the rules in authoring order. -/
def names (rules : List Rule) : List String := rules.map Rule.name

/-- The rules that no rule of another name references, in authoring order. -/
def topRules (rules : List Rule) : List Rule :=
  rules.filter fun rule =>
    !rules.any fun other => other.name != rule.name && other.referencesRule rule.name

/-- The first rule with an empty definition, and the position of its first one. -/
def emptyDefinition? (rules : List Rule) : Option (String × Nat) :=
  rules.findSome? fun rule => (rule.definitions.findIdx? List.isEmpty).map fun i => (rule.name, i)

/-- The first rule that references an undefined name, and its first such name. -/
def undefinedReference? (rules : List Rule) : Option (String × String) :=
  rules.findSome? fun rule =>
    (rule.references.find? fun name => (find? rules name).isNone).map fun name => (rule.name, name)

/-- How many rules are not on a path. -/
def unvisited (rules : List Rule) (path : List String) : Nat :=
  rules.countP fun rule => decide (rule.name ∉ path)

theorem find?_mem {rules : List Rule} {name : String} {rule : Rule}
    (h : find? rules name = some rule) : rule ∈ rules :=
  List.mem_of_find?_eq_some h

theorem find?_name {rules : List Rule} {name : String} {rule : Rule}
    (h : find? rules name = some rule) : rule.name = name := by
  simpa using List.find?_some h

/-- A path that visits one more rule leaves fewer rules unvisited. -/
theorem unvisited_cons_lt {rules : List Rule} {path : List String} {name : String} {rule : Rule}
    (hr : find? rules name = some rule) (hn : name ∉ path) :
    unvisited rules (name :: path) < unvisited rules path := by
  have hmem := find?_mem hr
  have hname := find?_name hr
  clear hr
  unfold unvisited
  induction rules with
  | nil => cases hmem
  | cons head rest ih =>
    have mono : rest.countP (fun rule => decide (rule.name ∉ name :: path)) ≤
        rest.countP fun rule => decide (rule.name ∉ path) :=
      List.countP_mono_left fun r _ h => by
        simp only [List.mem_cons, not_or, decide_eq_true_eq] at h ⊢
        exact h.2
    rw [List.countP_cons, List.countP_cons]
    rcases List.mem_cons.1 hmem with rfl | hmem
    · simp only [hname, hn, List.mem_cons_self, not_true, not_false_iff, decide_true, decide_false,
        if_true, Bool.false_eq_true, if_false]
      omega
    · have := ih hmem
      by_cases hin : head.name ∈ path
      · simp only [hin, List.mem_cons_of_mem, not_true, decide_false, Bool.false_eq_true, if_false]
        omega
      · simp only [hin, not_false_iff, decide_true, if_true]
        split <;> omega

/-- The other rules that a rule references, in order of appearance. -/
def successors (rule : Rule) : List String :=
  rule.references.filter fun name => name != rule.name

/-- The references from `name` along the path back to `name`; the path runs newest first. -/
def closedBy (path : List String) (name : String) : List String :=
  name :: (path.takeWhile fun other => other != name).reverse ++ [name]

/-- Follow the names in turn, each with what it references, below a path of names that runs newest
first.  Either a cycle is met, or the names that were followed to the end join the finished ones. -/
def follow (rules : List Rule) (path finished : List String) :
    List String → Except (List String) (List String)
  | [] => .ok finished
  | name :: rest =>
    if hp : name ∈ path then .error (closedBy path name)
    else if name ∈ finished then follow rules path finished rest
    else
      match hr : find? rules name with
      | none => follow rules path finished rest
      | some rule =>
        have := unvisited_cons_lt hr hp
        match follow rules (name :: path) finished (successors rule) with
        | .error cycle => .error cycle
        | .ok finished => follow rules path (name :: finished) rest
termination_by names => (unvisited rules path, names.length)
decreasing_by
  · exact Prod.Lex.right _ (Nat.lt_succ_self _)
  · exact Prod.Lex.right _ (Nat.lt_succ_self _)
  · exact Prod.Lex.left _ _ this
  · exact Prod.Lex.right _ (Nat.lt_succ_self _)

/-- A cycle of references between distinct rules: its names in order, the first again at the end;
nothing where there is none. -/
def cycle (rules : List Rule) : List String :=
  match follow rules [] [] (names rules) with
  | .error cycle => cycle
  | .ok _ => []

end ChainGrammar.Rules
