import ChainGrammar.Numeral.Rounding
import ChainGrammar.Numeral.Shortest
import ChainGrammar.Text.Quoted

/-!
# Argument values

The values that a method of a chain takes: whole numbers of 64 bits, binary floating-point numbers,
truth values and texts.  `Value.text` writes a value the way transcripts and expressions show it.
-/

set_option autoImplicit false

namespace ChainGrammar

/-- An argument of a method call. -/
inductive Value where
  | int (n : Int64)
  | float (x : Binary64)
  | bool (b : Bool)
  | string (s : String)
  deriving DecidableEq, Inhabited

namespace Value

/-- A whole number of 32 bits widens to one of 64 bits. -/
def ofInt32 (n : Int32) : Value := .int n.toInt64

/-- The text of a text value. -/
def asString? : Value → Option String
  | .string s => some s
  | _ => none

/-- The number of a whole-number value. -/
def asInt? : Value → Option Int64
  | .int n => some n
  | _ => none

/-- The truth value of a truth value. -/
def asBool? : Value → Option Bool
  | .bool b => some b
  | _ => none

/-- The number of a numeric value; whole numbers widen to the nearest floating-point number. -/
def asFloat? : Value → Option Binary64
  | .float x => some x
  | .int n => some (Binary64.ofInt n.toInt)
  | _ => none

/-- Equality of values: values of different kinds differ, and floating-point numbers compare by number. -/
def equals : Value → Value → Bool
  | .int m, .int n => m == n
  | .float x, .float y => x.numEq y
  | .bool b, .bool c => b == c
  | .string s, .string t => s == t
  | _, _ => false

/-- The decimal text of an integer. -/
def intChars (i : Int) : List Char :=
  if i < 0 then '-' :: Decimal.digits i.natAbs else Decimal.digits i.natAbs

/-- The text of a value. -/
def chars : Value → List Char
  | .int n => intChars n.toInt
  | .float x => x.chars
  | .bool b => if b then ['t', 'r', 'u', 'e'] else ['f', 'a', 'l', 's', 'e']
  | .string s => Text.quotedChars s.toList

/-- The text of a value. -/
def text (v : Value) : String := String.ofList v.chars

end Value

end ChainGrammar
