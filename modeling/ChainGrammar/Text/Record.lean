import ChainGrammar.Text.Quoted

/-!
# Records as text

The notation in which grammars, APIs and chains are inspected: a name with its fields between braces,
lists between brackets, and two dots for fields that are not shown.
-/

set_option autoImplicit false

namespace ChainGrammar.Text

/-- Items between brackets. -/
def listed (items : List String) : String := "[" ++ String.intercalate ", " items ++ "]"

/-- A name with fields between braces; `partly` says that some fields are left out. -/
def record (name : String) (fields : List (String × String)) (partly : Bool) : String :=
  let shown := fields.map fun (field, value) => field ++ ": " ++ value
  name ++ " \x7b " ++ String.intercalate ", " (shown ++ if partly then [".."] else []) ++ " \x7d"

/-- A truth value. -/
def truth (b : Bool) : String := if b then "true" else "false"

end ChainGrammar.Text
