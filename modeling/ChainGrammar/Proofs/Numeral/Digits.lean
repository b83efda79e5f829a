import ChainGrammar.Expression.Grammar
import Mathlib.Data.Nat.Digits.Defs

/-!
# Decimal digits and the numbers they denote

Numbers are written by `Decimal.digits` and read by `Expression.number`.  Reading undoes writing
(`number_digits`), and a decimal with places behind its point is written with digits on both sides of
the point that together denote its coefficient (`exists_pointed`).
-/

set_option autoImplicit false

namespace ChainGrammar.Decimal

open Expression (Digits number)

/-! ## Whole numbers -/

/-- The digits of a number denote it. -/
theorem number_digits (n : Nat) : number (digits n) = n :=
  Nat.ofDigitChars_toDigits (by decide) (by decide)

/-- Every number has digits, and nothing else stands in its text. -/
theorem digits_run (n : Nat) : Digits (digits n) :=
  ⟨Nat.toDigits_ne_nil, fun _ => Nat.isDigit_of_mem_toDigits (by decide) (by decide)⟩

/-- Digits in front of others count for a power of ten each. -/
theorem number_append (front behind : List Char) :
    number (front ++ behind) = 10 ^ behind.length * number front + number behind := by
  unfold number
  rw [Nat.ofDigitChars_append, Nat.ofDigitChars_eq_ofDigitChars_zero]

/-- Only zero is written with a zero in front. -/
theorem head?_digits {n : Nat} (positive : n ≠ 0) : (digits n).head? ≠ some '0' := by
  induction n using Nat.strongRecOn with
  | ind n ih =>
    unfold digits at ih ⊢
    by_cases small : n < 10
    · have single : ∀ m < 10, m ≠ 0 → [m.digitChar].head? ≠ some '0' := by decide
      rw [Nat.toDigits_of_lt_base small]
      exact single n small positive
    · have shorter := ih (n / 10) (by omega) (by omega)
      obtain ⟨c, cs, front⟩ := List.exists_cons_of_ne_nil (Nat.toDigits_ne_nil (b := 10) (n := n / 10))
      rw [Nat.toDigits_of_base_le (by decide) (by omega), front]
      rwa [front] at shorter

/-! ## Places behind the point -/

/-- Zeros in front do not change a number. -/
theorem number_fractionDigits (places n : Nat) : number (fractionDigits places n) = n := by
  rw [fractionDigits, number_append, number_digits]
  unfold number
  rw [Nat.ofDigitChars_replicate_zero, Nat.mul_zero, Nat.mul_zero, Nat.zero_add]

theorem length_fractionDigits {places n : Nat} (some : 0 < places) (fits : n < 10 ^ places) :
    (fractionDigits places n).length = places := by
  have short : (digits n).length ≤ places :=
    (Nat.length_toDigits_le_iff (by decide) some).2 fits
  rw [fractionDigits, List.length_append, List.length_replicate]
  omega

theorem isDigit_of_mem_fractionDigits {places n : Nat} {c : Char}
    (h : c ∈ fractionDigits places n) : c.isDigit = true := by
  rcases List.mem_append.1 h with h | h
  · obtain rfl := List.eq_of_mem_replicate h
    rfl
  · exact (digits_run n).2 c h

/-! ## Decimals -/

/-- A decimal with places behind its point is written with digits on both sides of the point: as many
behind it as it has places, and together those of its coefficient. -/
theorem exists_pointed (coefficient n : Nat) :
    ∃ whole fraction, (⟨coefficient, .negSucc n⟩ : Decimal).chars = whole ++ '.' :: fraction ∧
      Digits whole ∧ Digits fraction ∧ fraction.length = n + 1 ∧
      number (whole ++ fraction) = coefficient := by
  have length : (fractionDigits (n + 1) (coefficient % 10 ^ (n + 1))).length = n + 1 :=
    length_fractionDigits (Nat.succ_pos n) (Nat.mod_lt _ (Nat.pos_of_ne_zero (by simp)))
  refine ⟨digits (coefficient / 10 ^ (n + 1)), fractionDigits (n + 1) (coefficient % 10 ^ (n + 1)),
    rfl, digits_run _, ⟨?_, fun _ => isDigit_of_mem_fractionDigits⟩, length, ?_⟩
  · exact List.ne_nil_of_length_eq_add_one length
  · rw [number_append, length, number_digits, number_fractionDigits, Nat.div_add_mod]

/-- A decimal without places behind its point is written with digits only. -/
theorem digits_chars (coefficient n : Nat) : Digits (⟨coefficient, .ofNat n⟩ : Decimal).chars :=
  digits_run _

end ChainGrammar.Decimal
