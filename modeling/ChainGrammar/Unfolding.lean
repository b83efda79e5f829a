import ChainGrammar.Rule.References

/-!
# Unfolding the rules

Every reference to a rule is replaced by the definitions of that rule, except where the rule is
being unfolded already: there a back-edge stands for it.  The unfolding is therefore finite whatever
the references, because each step down puts one more rule on the path (`bodyOf`).

A symbol becomes a method whose parameters are its own names followed by the arguments declared
behind it, up to the next symbol.  In a definition that has been written as it may be, these are the
arguments that follow the symbol directly (`declaredParams`).
-/

set_option autoImplicit false

namespace ChainGrammar

/-- A declared argument of a method. -/
inductive Param where
  | named (name : String)
  | value
  deriving DecidableEq, Inhabited

/-- How a declared argument is shown. -/
def Param.text : Param → String
  | .named name => name
  | .value => "value"

/-- What a node of the unfolded rules stands for. -/
inductive Label where
  /-- The node above all entry rules. -/
  | root
  /-- A method, with the rule that declares it. -/
  | method (name owner : String) (params : List Param) (optional : Bool)
  /-- An unfolded rule. -/
  | rule (name : String) (optional : Bool) (repeats : Repeat)
  /-- A reference to a rule that is being unfolded, with the rule that holds the reference. -/
  | backEdge (name owner : String) (optional : Bool) (repeats : Repeat)
  deriving DecidableEq, Inhabited

namespace Label

/-- The name of the method or of the rule. -/
def name : Label → String
  | .root => ""
  | .method name .. => name
  | .rule name .. => name
  | .backEdge name .. => name

/-- The rule that the node belongs to; an unfolded rule belongs to itself. -/
def owner : Label → String
  | .root => ""
  | .method _ owner .. => owner
  | .rule name .. => name
  | .backEdge _ owner .. => owner

/-- The declared arguments of a method. -/
def params : Label → List Param
  | .method _ _ params _ => params
  | _ => []

/-- The label with more declared arguments, if it is that of a method. -/
def declare (label : Label) (more : List Param) : Label :=
  match label with
  | .method name owner params optional => .method name owner (params ++ more) optional
  | other => other

@[simp] theorem declare_nil (label : Label) : label.declare [] = label := by
  cases label <;> simp [declare]

@[simp] theorem declare_declare (label : Label) (first second : List Param) :
    (label.declare first).declare second = label.declare (first ++ second) := by
  cases label <;> simp [declare]

/-- May the node be left out? -/
def optional : Label → Bool
  | .root => false
  | .method _ _ _ optional => optional
  | .rule _ optional _ => optional
  | .backEdge _ _ optional _ => optional

/-- How often the node may occur in a row. -/
def repeats : Label → Repeat
  | .rule _ _ repeats => repeats
  | .backEdge _ _ _ repeats => repeats
  | _ => .once

/-- Is it a method? -/
def isMethod : Label → Bool
  | .method .. => true
  | _ => false

/-- Is it a back-edge? -/
def isBackEdge : Label → Bool
  | .backEdge .. => true
  | _ => false

/-- Is it the unfolded rule of the given name? -/
def isRule (label : Label) (name : String) : Bool :=
  match label with
  | .rule other .. => other == name
  | _ => false

end Label

/-- The unfolding of one definition: its elements in order, each with the alternatives below it. -/
inductive Unfolding where
  | done
  | step (label : Label) (body : List Unfolding) (next : Unfolding)
  deriving Inhabited

namespace Unfolding

/-- The arguments declared at the front of a definition, up to the next symbol or reference. -/
def declaredParams : Definition → List Param
  | .parameter name :: rest => .named name :: declaredParams rest
  | .value :: rest => .value :: declaredParams rest
  | _ => []

/-- The arguments declared in a definition up to the next symbol, on either side of references. -/
def paramsToSymbol : Definition → List Param
  | [] => []
  | .symbol .. :: _ => []
  | .parameter name :: rest => .named name :: paramsToSymbol rest
  | .value :: rest => .value :: paramsToSymbol rest
  | .reference .. :: rest => paramsToSymbol rest
  | .alternation :: rest => paramsToSymbol rest

/-- Unfold a definition of `rule`, given the rules on the path and the bodies of those off it. -/
def ofDefinition (rule : String) (path : List String)
    (body : (target : String) → target ∉ path → List Unfolding) : Definition → Unfolding
  | [] => .done
  | .symbol name params optional :: rest =>
    .step (.method name rule (params.map .named ++ paramsToSymbol rest) optional) []
      (ofDefinition rule path body rest)
  | .reference target optional repeats :: rest =>
    if h : target ∈ path then
      .step (.backEdge target rule optional repeats) [] (ofDefinition rule path body rest)
    else .step (.rule target optional repeats) (body target h) (ofDefinition rule path body rest)
  | _ :: rest => ofDefinition rule path body rest

/-- The unfolded definitions of a rule that is not on the path. -/
def bodyOf (rules : List Rule) (path : List String) (name : String) (off : name ∉ path) :
    List Unfolding :=
  match found : Rules.find? rules name with
  | none => []
  | some rule =>
    have := Rules.unvisited_cons_lt found off
    rule.definitions.map
      (ofDefinition name (name :: path) fun target h => bodyOf rules (name :: path) target h)
termination_by Rules.unvisited rules path

/-- The unfolding of an entry rule. -/
def ofEntry (rules : List Rule) (name : String) : Unfolding :=
  .step (.rule name false .once) (bodyOf rules [] name List.not_mem_nil) .done

end Unfolding

end ChainGrammar
