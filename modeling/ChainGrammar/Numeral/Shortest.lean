import ChainGrammar.Numeral.Binary64

/-!
# The shortest decimal text of a binary number

Every finite number is written with the fewest decimal digits that still read back as that number.
The decimals that read back form an interval around it: half a step to either side, a quarter step
downwards where the step size changes, both ends included exactly when the significand is even.
The search goes through the grids `10 ^ 308, 10 ^ 307, …, 10 ^ (-324)` and takes the first with a
point in the interval; on one grid only the two neighbours of the number matter, of two admissible
neighbours the nearer is taken, and of two equally near ones the larger.

Texts are always positional: no exponent, and no decimal point in a whole number.
-/

set_option autoImplicit false

namespace ChainGrammar

/-- The nonnegative decimal `coefficient * 10 ^ exponent`. -/
structure Decimal where
  coefficient : Nat
  exponent : Int
  deriving DecidableEq, Inhabited

namespace Decimal

/-- Decimal digits of a natural number. -/
def digits (n : Nat) : List Char := Nat.toDigits 10 n

/-- Digits behind the decimal point, with leading zeros up to the given number of places. -/
def fractionDigits (places n : Nat) : List Char :=
  List.replicate (places - (digits n).length) '0' ++ digits n

/-- Positional notation. -/
def chars (d : Decimal) : List Char :=
  match d.exponent with
  | .ofNat zeros => digits (d.coefficient * Nat.pow 10 zeros)
  | .negSucc n =>
    let places := n + 1
    digits (d.coefficient / Nat.pow 10 places) ++
      '.' :: fractionDigits places (d.coefficient % Nat.pow 10 places)

end Decimal

namespace Binary64

/-- The decimals that read back as one finite number, as bounds in quarters of `2 ^ (-1074)`. -/
structure Interval where
  lower : Nat
  upper : Nat
  closed : Bool

/-- The interval of a nonzero finite number. -/
def interval (x : Binary64) : Interval where
  lower :=
    (4 * x.significand - (if x.significand = leadingBit ∧ 0 < x.shift then 1 else 2)) *
      Nat.pow 2 x.shift
  upper := (4 * x.significand + 2) * Nat.pow 2 x.shift
  closed := x.significand % 2 == 0

/-- A natural number over a power of ten, the form in which grid points and bounds are compared. -/
structure Scaled where
  num : Nat
  den : Nat

/-- The spacing of the grid `10 ^ exponent`, in quarters of `2 ^ (-1074)`. -/
def gridSpacing : Int → Scaled
  | .ofNat n => ⟨Nat.pow 10 n * Nat.pow 2 1076, 1⟩
  | .negSucc n => ⟨Nat.pow 2 1076, Nat.pow 10 (n + 1)⟩

/-- Does a multiple of the grid spacing lie in the interval? -/
def Interval.holds (i : Interval) (spacing : Scaled) (multiple : Nat) : Bool :=
  let point := multiple * spacing.num
  let lower := i.lower * spacing.den
  let upper := i.upper * spacing.den
  if i.closed then decide (lower ≤ point ∧ point ≤ upper) else decide (lower < point ∧ point < upper)

/-- The admissible decimal on the grid `10 ^ exponent` that is nearest to a finite nonzero number. -/
def onGrid? (x : Binary64) (exponent : Int) : Option Decimal :=
  let spacing := gridSpacing exponent
  let value := 4 * x.steps * spacing.den
  let below := value / spacing.num
  let gap := value % spacing.num
  let admits := x.interval.holds spacing
  if admits below then
    if admits (below + 1) && decide (spacing.num ≤ 2 * gap) then some ⟨below + 1, exponent⟩
    else some ⟨below, exponent⟩
  else if admits (below + 1) then some ⟨below + 1, exponent⟩
  else none

/-- The exponents of the grids, coarsest first. -/
def gridExponents : List Int := (List.range 633).map fun i => 308 - Int.ofNat i

/-- The shortest decimal that reads back as a finite nonzero number. -/
def shortest (x : Binary64) : Decimal :=
  (gridExponents.findSome? x.onGrid?).getD ⟨0, 0⟩

/-- The text of a number without its sign. -/
def magnitudeChars (x : Binary64) : List Char :=
  if x.isFinite then
    if x.isZero then ['0'] else x.shortest.chars
  else ['i', 'n', 'f']

/-- The text of a number; zero keeps its sign and a non-number has none. -/
def chars (x : Binary64) : List Char :=
  if x.isNaN then ['N', 'a', 'N']
  else if x.isNegative then '-' :: x.magnitudeChars
  else x.magnitudeChars

end Binary64

end ChainGrammar
