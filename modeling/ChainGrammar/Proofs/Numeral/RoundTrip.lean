import ChainGrammar.Proofs.Numeral.Digits
import Mathlib.Tactic.SplitIfs

/-!
# The decimal text of a binary number reads back as that number

`Binary64.shortest` looks for a decimal inside the interval of a number, and `Binary64.ofDecimal` rounds
a decimal to the nearest number.  Both describe the same neighbourhood: a decimal in the interval is
read as the number whose interval it is (`ofDecimal_of_holds`), so the digits that are written for a
number are read as that number again (`exists_pointed`).

Rounding settles the shift first, by the size of the quotient, and the significand after it.  The
shift comes out as that of the number except for decimals just below a power of two: there the steps
are half as wide, the quotient rounds up to `2 ^ 53` of them, and the pattern is the same.
-/

set_option autoImplicit false

namespace ChainGrammar

open Expression (Digits number)

/-! ## Rounding to the nearest whole number -/

/-- A quotient is within one half of a whole number, and less than one half away from an odd one. -/
structure RoundsTo (num den whole : Nat) : Prop where
  lower : 2 * (whole * den) ≤ 2 * num + den
  upper : 2 * num ≤ 2 * (whole * den) + den
  tie : whole % 2 = 1 → 2 * (whole * den) ≠ 2 * num + den ∧ 2 * num ≠ 2 * (whole * den) + den

/-- A quotient near enough to a whole number is rounded to it. -/
theorem RoundsTo.roundHalfEven_eq {num den whole : Nat} (rounds : RoundsTo num den whole)
    (positive : 0 < den) : roundHalfEven num den = whole := by
  obtain ⟨lower, upper, tie⟩ := rounds
  have split : num / den * den + num % den = num := Nat.div_add_mod' num den
  have small : num % den < den := Nat.mod_lt num positive
  unfold roundHalfEven
  dsimp only
  generalize num / den = quotient at *
  generalize num % den = remainder at *
  -- the whole number is the quotient or the next one
  have above : quotient ≤ whole := by
    refine Nat.le_of_not_lt fun far => ?_
    have := Nat.mul_le_mul_right den (show whole + 1 ≤ quotient from far)
    rw [Nat.add_mul] at this
    omega
  have below : whole ≤ quotient + 1 := by
    refine Nat.le_of_not_lt fun far => ?_
    have := Nat.mul_le_mul_right den (show quotient + 2 ≤ whole from far)
    rw [Nat.add_mul] at this
    omega
  obtain rfl | rfl : whole = quotient ∨ whole = quotient + 1 := by omega
  · split_ifs with less more even
    · rfl
    · omega
    · rfl
    · have := tie (by omega)
      omega
  · rw [Nat.add_mul] at lower upper tie
    split_ifs with less more even
    · omega
    · rfl
    · have := tie (by omega)
      omega
    · rfl

namespace Binary64

/-! ## Patterns -/

theorem isNaN_eq_false {x : Binary64} (finite : x.isFinite = true) : x.isNaN = false := by
  have notTop : (x.exponentField == topExponent) = false := by simpa [isFinite] using finite
  rw [isNaN, notTop, Bool.false_and]

theorem significand_lt (x : Binary64) : x.significand < 2 ^ 53 := by
  have hleading : leadingBit = 2 ^ 52 := rfl
  have hfraction : x.fractionField < leadingBit := Nat.mod_lt _ (by decide)
  unfold significand
  split_ifs <;> omega

/-- A number that is scaled has the leading bit. -/
theorem le_significand {x : Binary64} (scaled : 0 < x.shift) : 2 ^ 52 ≤ x.significand := by
  have hleading : leadingBit = 2 ^ 52 := rfl
  unfold shift at scaled
  unfold significand
  split_ifs <;> omega

/-- Without its sign the pattern of a number is made of its shift and its significand. -/
theorem pattern_eq (x : Binary64) :
    x.shift * leadingBit + x.significand = x.exponentField * leadingBit + x.fractionField := by
  unfold shift significand
  split_ifs with h
  · rw [h]
  · obtain ⟨e, he⟩ := Nat.exists_eq_succ_of_ne_zero h
    rw [he, Nat.succ_sub_one, Nat.succ_mul]
    omega

/-- A finite number is written by its sign, its significand and its shift. -/
theorem ofSteps_self {x : Binary64} (finite : x.isFinite = true) :
    ofSteps x.isNegative x.significand x.shift = x := by
  have hleading : leadingBit = 4503599627370496 := rfl
  have hsign : signBit = 9223372036854775808 := rfl
  have bound : x.bits.toNat < 18446744073709551616 := x.bits.toNat_lt
  have hexponent : x.exponentField ≠ 2047 := by simpa [isFinite, topExponent] using finite
  have bits : (if x.isNegative = true then signBit + (x.exponentField * leadingBit + x.fractionField)
      else x.exponentField * leadingBit + x.fractionField) = x.bits.toNat := by
    unfold isNegative exponentField fractionField topExponent
    simp only [decide_eq_true_eq, hleading, hsign]
    split <;> omega
  have below : x.exponentField * leadingBit + x.fractionField ≤ infinityPattern := by
    have hfraction : x.fractionField < leadingBit := Nat.mod_lt _ (by decide)
    have hfield : x.exponentField < 2048 := Nat.mod_lt _ (by decide)
    unfold infinityPattern topExponent
    rw [hleading] at hfraction ⊢
    omega
  rw [ofSteps, pattern_eq, Nat.min_eq_left below, ofPattern, bits]
  exact congrArg Binary64.mk (UInt64.ofNat_toNat)

/-- One more bit of shift for `2 ^ 52` is the same as `2 ^ 53` without it. -/
theorem ofSteps_carry (negative : Bool) (shift : Nat) :
    ofSteps negative (2 ^ 53) shift = ofSteps negative (2 ^ 52) (shift + 1) := by
  have carried : shift * leadingBit + 2 ^ 53 = (shift + 1) * leadingBit + 2 ^ 52 := by
    have hleading : leadingBit = 2 ^ 52 := rfl
    rw [Nat.add_mul]
    omega
  rw [ofSteps, ofSteps, carried]

/-! ## Rounding at a shift -/

/-- A whole number of steps with fifty-three bits above the shift gives up as many bits as the shift. -/
theorem excessBits_eq {whole shift : Nat} (upper : whole < 2 ^ (53 + shift))
    (lower : shift = 0 ∨ 2 ^ (52 + shift) ≤ whole) : excessBits whole = shift := by
  unfold excessBits
  rcases Nat.eq_zero_or_pos whole with rfl | positive
  · rcases lower with rfl | lower
    · rfl
    · exact absurd lower (by simp)
  · have above := (Nat.log2_lt (Nat.ne_of_gt positive)).2 upper
    rcases lower with rfl | lower
    · omega
    · have below := (Nat.le_log2 (Nat.ne_of_gt positive)).2 lower
      omega

/-- A quotient with fifty-three bits above a shift is rounded at that shift. -/
theorem ofRatio_eq_ofSteps {negative : Bool} {num den scaled significand shift : Nat}
    (positive : 0 < den) (hscaled : num * Nat.pow 2 1074 = scaled)
    (rounds : RoundsTo scaled (den * 2 ^ shift) significand)
    (upper : scaled < 2 ^ 53 * (den * 2 ^ shift))
    (lower : shift = 0 ∨ 2 ^ 52 * (den * 2 ^ shift) ≤ scaled) :
    ofRatio negative num den = ofSteps negative significand shift := by
  -- the shift is read off the whole steps, the significand is rounded from the exact quotient
  have excess : excessBits (scaled / den) = shift := by
    refine excessBits_eq ?_ (lower.imp_right fun lower => ?_)
    · rw [Nat.div_lt_iff_lt_mul positive, Nat.pow_add, Nat.mul_assoc, Nat.mul_comm _ den]
      exact upper
    · rw [Nat.le_div_iff_mul_le positive, Nat.pow_add, Nat.mul_assoc, Nat.mul_comm _ den]
      exact lower
  have unit : 0 < den * 2 ^ shift := Nat.mul_pos positive (Nat.two_pow_pos shift)
  unfold ofRatio
  rw [hscaled]
  dsimp only
  rw [excess]
  exact congrArg (ofSteps negative · shift) (rounds.roundHalfEven_eq unit)

/-! ## Reading back -/

/-- What an interval holds lies between its bounds, and on no bound of an open interval. -/
theorem Interval.of_holds {i : Interval} {spacing : Scaled} {multiple : Nat}
    (holds : i.holds spacing multiple = true) :
    i.lower * spacing.den ≤ multiple * spacing.num ∧ multiple * spacing.num ≤ i.upper * spacing.den ∧
      (i.closed = false →
        i.lower * spacing.den ≠ multiple * spacing.num ∧
          multiple * spacing.num ≠ i.upper * spacing.den) := by
  unfold Interval.holds at holds
  dsimp only at holds
  split_ifs at holds with closed
  · have bounds := of_decide_eq_true holds
    exact ⟨bounds.1, bounds.2, fun isOpen => absurd closed (by simp [isOpen])⟩
  · have bounds := of_decide_eq_true holds
    exact ⟨Nat.le_of_lt bounds.1, Nat.le_of_lt bounds.2,
      fun _ => ⟨Nat.ne_of_lt bounds.1, Nat.ne_of_lt bounds.2⟩⟩

/-- A quotient that rounds to the significand of a finite number and does not fall below the range of
its shift is read as that number. -/
theorem ofRatio_of_roundsTo {x : Binary64} {num den scaled : Nat} (finite : x.isFinite = true)
    (positive : 0 < den) (hscaled : num * Nat.pow 2 1074 = scaled)
    (rounds : RoundsTo scaled (den * 2 ^ x.shift) x.significand)
    (lower : x.shift = 0 ∨ 2 ^ 52 * (den * 2 ^ x.shift) ≤ scaled) :
    ofRatio x.isNegative num den = x := by
  have unit : 0 < den * 2 ^ x.shift := Nat.mul_pos positive (Nat.two_pow_pos _)
  have most : x.significand * (den * 2 ^ x.shift) ≤ (2 ^ 53 - 1) * (den * 2 ^ x.shift) :=
    Nat.mul_le_mul_right _ (Nat.le_pred_of_lt x.significand_lt)
  have upper := rounds.upper
  rw [ofRatio_eq_ofSteps positive hscaled rounds (by omega) lower, ofSteps_self finite]

/-- A quotient at most a quarter step below a power of two is read as that power. -/
theorem ofRatio_of_below {x : Binary64} {num den scaled shift : Nat} (finite : x.isFinite = true)
    (positive : 0 < den) (hscaled : num * Nat.pow 2 1074 = scaled) (hshift : x.shift = shift + 1)
    (power : x.significand = 2 ^ 52) (lower : (2 ^ 54 - 1) * (den * 2 ^ shift) ≤ 2 * scaled)
    (upper : scaled < 2 ^ 53 * (den * 2 ^ shift)) : ofRatio x.isNegative num den = x := by
  have rounds : RoundsTo scaled (den * 2 ^ shift) (2 ^ 53) :=
    ⟨by omega, by omega, fun odd => absurd odd (by decide)⟩
  rw [ofRatio_eq_ofSteps positive hscaled rounds upper (.inr (by omega)), ofSteps_carry, ← power,
    ← hshift, ofSteps_self finite]

/-- A quotient between the bounds of the interval of a finite number, and on none of them if the interval
is open, is read as that number. -/
theorem ofRatio_of_bounds {x : Binary64} {num den scaled : Nat} (finite : x.isFinite = true)
    (positive : 0 < den) (hscaled : num * Nat.pow 2 1074 = scaled)
    (lower : x.interval.lower * den ≤ 4 * scaled) (upper : 4 * scaled ≤ x.interval.upper * den)
    (sides : x.interval.closed = false →
      x.interval.lower * den ≠ 4 * scaled ∧ 4 * scaled ≠ x.interval.upper * den) :
    ofRatio x.isNegative num den = x := by
  obtain ⟨unit, hunit⟩ : ∃ unit, den * 2 ^ x.shift = unit := ⟨_, rfl⟩
  have hleading : leadingBit = 2 ^ 52 := rfl
  have hmul : ∀ n, n * Nat.pow 2 x.shift * den = n * unit := by
    intro n
    rw [← hunit, Nat.mul_assoc, Nat.mul_comm den]
    rfl
  simp only [interval, hleading, beq_eq_false_iff_ne, hmul, Nat.sub_mul, Nat.add_mul, Nat.mul_assoc]
    at lower upper sides
  by_cases below : (x.significand = 2 ^ 52 ∧ 0 < x.shift) ∧ scaled < x.significand * unit
  · obtain ⟨⟨power, hpos⟩, below⟩ := below
    obtain ⟨shift, hshift⟩ := Nat.exists_eq_add_one.2 hpos
    have double : unit = 2 * (den * 2 ^ shift) := by
      rw [← hunit, hshift, Nat.pow_succ, ← Nat.mul_assoc, Nat.mul_comm]
    rw [if_pos ⟨power, hpos⟩] at lower
    rw [power, double] at lower below
    exact ofRatio_of_below finite positive hscaled hshift power (by omega) (by omega)
  · -- the interval reaches half a step down, or the quotient is not below the number
    have reach : (if x.significand = 2 ^ 52 ∧ 0 < x.shift then 1 else 2) * unit ≤ 2 * unit :=
      Nat.mul_le_mul_right unit (by split_ifs <;> omega)
    refine ofRatio_of_roundsTo finite positive hscaled ?_ ?_
    · rw [hunit]
      refine ⟨by omega, by omega, fun odd => ?_⟩
      rw [if_neg fun power => by omega] at sides
      have := sides (by omega)
      omega
    · rw [hunit]
      refine (Nat.eq_zero_or_pos x.shift).imp_right fun hpos => ?_
      rcases Nat.eq_or_lt_of_le (le_significand hpos) with power | more
      · have := fun below' => below ⟨⟨power.symm, hpos⟩, below'⟩
        rw [power]
        omega
      · have := Nat.mul_le_mul_right unit (show 2 ^ 52 + 1 ≤ x.significand from more)
        omega

/-- Two more binary places are a factor of four. -/
theorem mul_pow_eq {num few many : Nat} (more : many = few + 2) :
    num * Nat.pow 2 many = 4 * (num * Nat.pow 2 few) := by
  obtain rfl := more
  change num * (Nat.pow 2 few * 2 * 2) = _
  rw [← Nat.mul_assoc, ← Nat.mul_assoc]
  omega

/-- A decimal in the interval of a finite number is read as that number. -/
theorem ofDecimal_of_holds {x : Binary64} {coefficient n : Nat} (finite : x.isFinite = true)
    (holds : x.interval.holds (gridSpacing (.negSucc n)) coefficient = true) :
    ofDecimal x.isNegative coefficient (n + 1) = x := by
  have positive : 0 < Nat.pow 10 (n + 1) := Nat.pow_pos (by decide)
  have quarters : coefficient * Nat.pow 2 1076 = 4 * (coefficient * Nat.pow 2 1074) := by
    apply mul_pow_eq
    rfl
  obtain ⟨lower, upper, sides⟩ := Interval.of_holds holds
  simp only [gridSpacing, quarters] at lower upper sides
  exact ofRatio_of_bounds finite positive rfl lower upper sides

/-! ## The shortest decimal -/

/-- What is found on a grid lies on that grid and in the interval. -/
theorem of_onGrid? {x : Binary64} {d : Decimal} {exponent : Int} (found : x.onGrid? exponent = some d) :
    d.exponent = exponent ∧ x.interval.holds (gridSpacing exponent) d.coefficient = true := by
  unfold onGrid? at found
  dsimp only at found
  split_ifs at found with below more above
  all_goals obtain rfl := Option.some.inj found
  · rw [Bool.and_eq_true] at more
    exact ⟨rfl, more.1⟩
  · exact ⟨rfl, below⟩
  · exact ⟨rfl, above⟩

/-- The shortest decimal is the one that was found on a grid; zero stands in where none was. -/
theorem shortest_cases (x : Binary64) :
    x.onGrid? x.shortest.exponent = some x.shortest ∨ x.shortest = ⟨0, 0⟩ := by
  unfold shortest
  cases search : gridExponents.findSome? x.onGrid? with
  | none => exact .inr rfl
  | some d =>
    obtain ⟨exponent, -, found⟩ := List.exists_of_findSome?_eq_some search
    refine .inl ?_
    rw [Option.getD_some, (of_onGrid? found).1, found]

/-- A finite number whose text has a point has digits on both sides of it, and they are read as the
number itself. -/
theorem exists_pointed {x : Binary64} (finite : x.isFinite = true) (point : '.' ∈ x.magnitudeChars) :
    ∃ whole fraction, x.magnitudeChars = whole ++ '.' :: fraction ∧ Digits whole ∧ Digits fraction ∧
      ofDecimal x.isNegative (number (whole ++ fraction)) fraction.length = x := by
  have noPoint : ∀ {cs : List Char}, Digits cs → '.' ∉ cs := fun run h =>
    absurd (run.2 '.' h) (by decide)
  unfold magnitudeChars at point ⊢
  rw [if_pos finite] at point ⊢
  split_ifs at point ⊢ with zero
  · exact absurd point (by decide)
  · rcases x.shortest_cases with found | fallback
    · obtain ⟨-, holds⟩ := of_onGrid? found
      generalize x.shortest = d at *
      obtain ⟨coefficient, exponent⟩ := d
      cases exponent with
      | ofNat n => exact absurd point (noPoint (Decimal.digits_chars coefficient n))
      | negSucc n =>
        obtain ⟨whole, fraction, text, before, behind, places, hnumber⟩ :=
          Decimal.exists_pointed coefficient n
        exact ⟨whole, fraction, text, before, behind,
          by rw [hnumber, places, ofDecimal_of_holds finite holds]⟩
    · rw [fallback] at point
      exact absurd point (noPoint (Decimal.digits_chars 0 0))

end Binary64

end ChainGrammar
