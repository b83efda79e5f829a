/-!
# Repetition of a reference

How many consecutive occurrences of a rule a reference admits.
-/

set_option autoImplicit false

namespace ChainGrammar

/-- How often a referenced rule may occur at its position. -/
inductive Repeat where
  /-- One occurrence. -/
  | once
  /-- At most `limit` consecutive occurrences. -/
  | times (limit : UInt32)
  /-- Any number of consecutive occurrences. -/
  | unbounded
  deriving DecidableEq, Inhabited

namespace Repeat

/-- The largest limit on the number of occurrences. -/
def largestLimit : Nat := 4294967295

/-- A negative count lifts the limit, zero and one admit a single occurrence, and counts beyond the
largest limit are taken for it. -/
def ofCount (count : Int64) : Repeat :=
  if count.toInt < 0 then .unbounded
  else if count.toInt ≤ 1 then .once
  else .times (UInt32.ofNat (min count.toInt.toNat largestLimit))

/-- May another occurrence follow after `done` completed ones? -/
def allowsAnother : Repeat → Nat → Bool
  | .once, _ => false
  | .times limit, done => decide (done < limit.toNat)
  | .unbounded, _ => true

/-- The mark behind a repeated reference. -/
def mark : Repeat → String
  | .once => ""
  | .times limit => "\x7b.." ++ toString limit.toNat ++ "\x7d"
  | .unbounded => "*"

end Repeat

end ChainGrammar
