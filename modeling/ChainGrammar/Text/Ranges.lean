/-!
# Sets of code points as ranges

A property of characters is given as the ascending list of its ranges of code points, both ends
included.  `Ranges.has` stops at the first range that begins after the code point; for an ascending
list this decides membership (`Ranges.has_iff`).
-/

set_option autoImplicit false

namespace ChainGrammar.Text

/-- Ranges of code points, both ends included. -/
abbrev Ranges := List (Nat × Nat)

namespace Ranges

/-- Is the code point in one of the ranges, given that they ascend? -/
def has : Ranges → Nat → Bool
  | [], _ => false
  | (first, last) :: rest, n => decide (first ≤ n) && (decide (n ≤ last) || has rest n)

/-- Every range begins after the given bound and after the end of the one before it. -/
def AscendFrom : Nat → Ranges → Bool
  | _, [] => true
  | bound, (first, last) :: rest =>
    decide (bound ≤ first) && decide (first ≤ last) && AscendFrom (last + 1) rest

theorem le_of_mem_of_ascendFrom {bound : Nat} {ranges : Ranges} (h : AscendFrom bound ranges = true)
    {range : Nat × Nat} (hr : range ∈ ranges) : bound ≤ range.1 := by
  induction ranges generalizing bound with
  | nil => cases hr
  | cons head rest ih =>
    obtain ⟨first, last⟩ := head
    simp only [AscendFrom, Bool.and_eq_true, decide_eq_true_eq] at h
    obtain ⟨⟨h₁, h₂⟩, h₃⟩ := h
    rcases List.mem_cons.1 hr with rfl | hr
    · exact h₁
    · have := ih h₃ hr
      omega

/-- For ascending ranges the early stop misses nothing. -/
theorem has_iff {bound : Nat} {ranges : Ranges} (h : AscendFrom bound ranges = true) (n : Nat) :
    ranges.has n = true ↔ ∃ range ∈ ranges, range.1 ≤ n ∧ n ≤ range.2 := by
  induction ranges generalizing bound with
  | nil => simp [has]
  | cons head rest ih =>
    obtain ⟨first, last⟩ := head
    simp only [AscendFrom, Bool.and_eq_true, decide_eq_true_eq] at h
    obtain ⟨⟨_, h₂⟩, h₃⟩ := h
    simp only [has, Bool.and_eq_true, Bool.or_eq_true, decide_eq_true_eq, ih h₃]
    constructor
    · rintro ⟨h₄, h₅ | ⟨range, hr, h₅⟩⟩
      · exact ⟨_, List.mem_cons_self, h₄, h₅⟩
      · exact ⟨range, List.mem_cons_of_mem _ hr, h₅⟩
    · rintro ⟨range, hr, h₄, h₅⟩
      rcases List.mem_cons.1 hr with rfl | hr
      · exact ⟨h₄, Or.inl h₅⟩
      · have := le_of_mem_of_ascendFrom h₃ hr
        exact ⟨by omega, Or.inr ⟨range, hr, h₄, h₅⟩⟩

end Ranges

end ChainGrammar.Text
