import ChainGrammar.Numeral.Binary64

/-!
# Rounding an exact quotient to the nearest binary number

`Binary64.ofRatio` picks the binary floating-point number nearest to a quotient of naturals; of two
equally near ones it takes the one with the even significand, and quotients beyond the largest
finite number become infinite.  Decimal texts and integers are read through it.
-/

set_option autoImplicit false

namespace ChainGrammar

/-- The natural number nearest to `num / den`; a tie goes to the even neighbour. -/
def roundHalfEven (num den : Nat) : Nat :=
  let quotient := num / den
  let remainder := num % den
  if 2 * remainder < den then quotient
  else if den < 2 * remainder then quotient + 1
  else if quotient % 2 = 0 then quotient
  else quotient + 1

namespace Binary64

/-- How many binary places below fifty-three significant ones a whole number of steps has to give up. -/
def excessBits (wholeSteps : Nat) : Nat := wholeSteps.log2 + 1 - 53

/-- The number nearest to `num / den`, with the given sign. -/
def ofRatio (negative : Bool) (num den : Nat) : Binary64 :=
  let scaled := num * Nat.pow 2 1074
  let shift := excessBits (scaled / den)
  ofSteps negative (roundHalfEven scaled (den * Nat.pow 2 shift)) shift

/-- The number nearest to `coefficient / 10 ^ places`, with the given sign. -/
def ofDecimal (negative : Bool) (coefficient places : Nat) : Binary64 :=
  ofRatio negative coefficient (Nat.pow 10 places)

/-- The number nearest to an integer. -/
def ofInt (i : Int) : Binary64 := ofRatio (decide (i < 0)) i.natAbs 1

end Binary64

end ChainGrammar
