/-!
# The 64-bit binary floating-point format

A number is its 64-bit pattern: a sign bit, an eleven-bit exponent field and a fifty-two-bit
fraction field.  A finite number is `significand * 2 ^ shift` steps of `2 ^ (-1074)`, the smallest
positive number, so that all arithmetic on finite numbers here is exact arithmetic on naturals.

Read without its sign, the pattern of a finite number is `shift * 2 ^ 52 + significand`.  This is
what `ofSteps` writes, also when rounding has carried the significand up to `2 ^ 53`.
-/

set_option autoImplicit false

namespace ChainGrammar

/-- A 64-bit pattern read as a binary floating-point number. -/
structure Binary64 where
  bits : UInt64
  deriving DecidableEq, Inhabited

namespace Binary64

/-- The place of the sign in a pattern. -/
def signBit : Nat := Nat.pow 2 63

/-- The place of the exponent field in a pattern, which is also the leading bit that the significand of
most numbers has and the fraction field does not hold. -/
def leadingBit : Nat := Nat.pow 2 52

/-- The exponent field that infinities and non-numbers carry. -/
def topExponent : Nat := 2047

/-- The pattern of infinity without its sign. -/
def infinityPattern : Nat := topExponent * leadingBit

/-- Is the sign bit set? -/
def isNegative (x : Binary64) : Bool := decide (signBit ≤ x.bits.toNat)

/-- The eleven bits below the sign. -/
def exponentField (x : Binary64) : Nat := x.bits.toNat / leadingBit % (topExponent + 1)

/-- The fifty-two lowest bits. -/
def fractionField (x : Binary64) : Nat := x.bits.toNat % leadingBit

/-- Neither an infinity nor a non-number. -/
def isFinite (x : Binary64) : Bool := x.exponentField != topExponent

/-- The patterns that are no number at all. -/
def isNaN (x : Binary64) : Bool := x.exponentField == topExponent && x.fractionField != 0

/-- Both zeros. -/
def isZero (x : Binary64) : Bool := x.exponentField == 0 && x.fractionField == 0

/-- The significand of a finite number; numbers with an exponent field of zero lack the leading bit. -/
def significand (x : Binary64) : Nat :=
  if x.exponentField = 0 then x.fractionField else leadingBit + x.fractionField

/-- The power of two by which the significand of a finite number is scaled, counted in steps of `2 ^ (-1074)`. -/
def shift (x : Binary64) : Nat := x.exponentField - 1

/-- The absolute value of a finite number, in steps of `2 ^ (-1074)`. -/
def steps (x : Binary64) : Nat := x.significand * Nat.pow 2 x.shift

/-- Numeric equality: a non-number equals nothing, not even itself, and the two zeros are equal. -/
def numEq (x y : Binary64) : Bool :=
  !x.isNaN && !y.isNaN && (x.bits == y.bits || (x.isZero && y.isZero))

/-- The number with a given sign and a given pattern below the sign. -/
def ofPattern (negative : Bool) (pattern : Nat) : Binary64 :=
  ⟨UInt64.ofNat (if negative then signBit + pattern else pattern)⟩

/-- The number `significand * 2 ^ shift` steps from zero, or an infinity where that is too large. -/
def ofSteps (negative : Bool) (significand shift : Nat) : Binary64 :=
  ofPattern negative (min (shift * leadingBit + significand) infinityPattern)

end Binary64

end ChainGrammar
