import ChainGrammar.Proofs.Expression.Composition

/-!
# The call in which reading stops

A text that is no expression is answered with the number of calls at its front.  That number is counted
in a second pass, `leadingCalls`, which knows nothing of the reader but its calls.  It is the number of calls that
the reader had completed where it stopped (`countCalls_eq_completed`), whatever the reason, and the grammar derives
calls at the front of the text up to that number and no further (`begins_leadingCalls`, `Begins.le_leadingCalls`).
-/

set_option autoImplicit false

namespace ChainGrammar.Expression

/-- The number of calls that are completed where reading ends or stops. -/
def completed : Except (Nat × Stop) (List Call × List Char) → Nat
  | .error (before, _) => before
  | .ok (read, _) => read.length

/-- The text begins with so many calls, with dots between them. -/
def Begins (text : List Char) (count : Nat) : Prop :=
  ∃ opening joined rest calls, text = opening ++ (joined ++ rest) ∧ Opening opening ∧
    Joined joined calls ∧ calls.length = count

/-! ## Counting and reading -/

/-- Counting calls ends where reading them ends or stops. -/
theorem countCalls_eq_completed (cs : List Char) : countCalls cs = completed (calls cs) := by
  fun_induction countCalls cs with
  | case1 cs stop hcall => rw [calls_stop hcall, completed]
  | case2 cs first rest hcall behind dot _ ih =>
    rw [calls_dot hcall dot, ih]
    cases calls behind with
    | error stopped => rfl
    | ok read => rfl
  | case3 cs first rest hcall other =>
    rw [calls_last hcall other, completed, List.length_singleton]

theorem leadingCalls_eq_completed (cs : List Char) :
    leadingCalls cs = completed (calls (skipLeadingDot cs)) :=
  countCalls_eq_completed _

/-- Where reading stops the leading calls have been completed. -/
theorem leadingCalls_of_error {cs : List Char} {before : Nat} {stop : Stop}
    (h : readChars cs = .error (before, stop)) : leadingCalls cs = before := by
  rw [leadingCalls_eq_completed]
  unfold readChars at h
  split at h
  · rename_i hcalls
    rw [hcalls, Except.error.inj h, completed]
  · cases h
  · rename_i hcalls
    rw [hcalls, completed]
    exact (Prod.mk.inj (Except.error.inj h)).1

/-- Where reading does not stop all calls are leading. -/
theorem leadingCalls_of_ok {cs : List Char} {read : List Call} (h : readChars cs = .ok read) :
    leadingCalls cs = read.length := by
  rw [leadingCalls_eq_completed]
  unfold readChars at h
  split at h
  · cases h
  · rename_i hcalls
    rw [hcalls, completed, Except.ok.inj h]
  · cases h

/-! ## Counting and the grammar -/

/-- A call with a dot behind it counts one more than the calls that follow. -/
theorem countCalls_dot {cs rest behind : List Char} {first : Call} (hcall : call cs = .ok (first, rest))
    (dot : skipBlanks rest = '.' :: behind) : countCalls cs = countCalls behind + 1 := by
  rw [countCalls_eq_completed, countCalls_eq_completed, calls_dot hcall dot]
  cases calls behind with
  | error stopped => rfl
  | ok read => rfl

/-- Where a call is read at least one is counted. -/
theorem countCalls_pos {cs rest : List Char} {first : Call} (hcall : call cs = .ok (first, rest)) :
    1 ≤ countCalls cs := by
  by_cases dot : ∃ behind, skipBlanks rest = '.' :: behind
  · obtain ⟨behind, dot⟩ := dot
    rw [countCalls_dot hcall dot]
    exact Nat.le_add_left 1 _
  · rw [countCalls_eq_completed, calls_last hcall fun behind h => dot ⟨behind, h⟩]
    exact Nat.le_refl 1

/-- Calls that are counted are joined by dots in front of what is left. -/
theorem joined_of_countCalls (cs : List Char) : countCalls cs = 0 ∨
    ∃ joined rest calls, cs = joined ++ rest ∧ Joined joined calls ∧ calls.length = countCalls cs := by
  fun_induction countCalls cs with
  | case1 => exact .inl rfl
  | case2 cs first afterFirst hcall behind dot _ ih =>
    obtain ⟨text, rfl, written⟩ := call_sound hcall
    rcases ih with zero | ⟨joined, rest, calls, rfl, chain, hlength⟩
    · rw [zero]
      exact .inr ⟨text, afterFirst, [first], rfl, .single written, rfl⟩
    · obtain ⟨between, betweenAll, hafter⟩ := exists_blanks afterFirst
      refine .inr ⟨text ++ between ++ '.' :: joined, rest, first :: calls, ?_,
        .cons written betweenAll chain, by rw [List.length_cons, hlength]⟩
      rw [hafter, dot]
      simp only [List.append_assoc, List.cons_append]
  | case3 cs first rest hcall other =>
    obtain ⟨text, rfl, written⟩ := call_sound hcall
    exact .inr ⟨text, rest, [first], rfl, .single written, rfl⟩

/-- Joined calls are all counted, whatever follows them. -/
theorem Joined.length_le_countCalls {joined : List Char} {calls : List Call} (h : Joined joined calls)
    (rest : List Char) : calls.length ≤ countCalls (joined ++ rest) := by
  induction h with
  | single written => exact countCalls_pos (call_complete written rest)
  | @cons text between others first calls written betweenAll chain ih =>
    have hdot : skipBlanks (between ++ '.' :: (others ++ rest)) = '.' :: (others ++ rest) :=
      skipBlanks_append betweenAll (stopsAt_cons (by decide))
    have htext : text ++ between ++ '.' :: others ++ rest =
        text ++ (between ++ '.' :: (others ++ rest)) := by
      simp only [List.append_assoc, List.cons_append]
    rw [htext, countCalls_dot (call_complete written _) hdot, List.length_cons]
    exact Nat.succ_le_succ ih

/-- The leading calls of a text stand at its front. -/
theorem begins_leadingCalls (cs : List Char) : leadingCalls cs = 0 ∨ Begins cs (leadingCalls cs) := by
  obtain ⟨opening, hcs, front⟩ := skipLeadingDot_sound cs
  refine (joined_of_countCalls (skipLeadingDot cs)).imp_right ?_
  rintro ⟨joined, rest, calls, hjoined, chain, hlength⟩
  exact ⟨opening, joined, rest, calls, by rw [← hjoined, ← hcs], front, chain, hlength⟩

/-- No more calls stand at the front of a text than are leading. -/
theorem Begins.le_leadingCalls {cs : List Char} {count : Nat} (h : Begins cs count) :
    count ≤ leadingCalls cs := by
  obtain ⟨opening, joined, rest, calls, rfl, front, chain, rfl⟩ := h
  rw [leadingCalls_eq_completed, calls_skipLeadingDot front chain, ← countCalls_eq_completed]
  exact chain.length_le_countCalls rest

/-- The index of an error is the number of calls that were completed where reading stopped, which is the largest
number of calls with which the text begins, zero if it begins with none. -/
structure Indexes (input : String) (error : ExpressionError) : Prop where
  stopped : readChars input.toList = .error (error.call, error.stop)
  begins : error.call = 0 ∨ Begins input.toList error.call
  largest : ∀ count, Begins input.toList count → count ≤ error.call

/-- The parts of an error. -/
theorem of_read_error {input : String} {error : ExpressionError} (h : read input = .error error) :
    ∃ before, readChars input.toList = .error (before, error.stop) ∧
      error.call = leadingCalls input.toList := by
  unfold read at h
  dsimp only at h
  split at h
  · cases h
  · rename_i before stop hchars
    obtain rfl := Except.error.inj h
    exact ⟨before, hchars, rfl⟩

/-- Wherever reading stops, the error tells the number of calls at the front of the text; where it does not stop, as
many calls are leading as are read. -/
theorem call_index_exact (input : String) :
    (∀ error, read input = .error error → Indexes input error) ∧
      ∀ calls, read input = .ok calls → leadingCalls input.toList = calls.length := by
  constructor
  · intro error h
    obtain ⟨before, hchars, hcall⟩ := of_read_error h
    refine ⟨?_, ?_, ?_⟩
    · rw [hchars, hcall, leadingCalls_of_error hchars]
    · rw [hcall]
      exact begins_leadingCalls _
    · intro count begins
      rw [hcall]
      exact begins.le_leadingCalls
  · intro calls h
    exact leadingCalls_of_ok ((read_ok_iff_readChars input calls).1 h)

/-- Nothing, a dot only, no name behind a dot, no parenthesis, a malformed number, an open text, and a rest. -/
example : ["", " . ", "a().", "a().b", "a().b(-1.2.3)", "a().b('", "a() b()"].map
    (fun text => leadingCalls text.toList) = [0, 0, 1, 1, 1, 1, 1] := by
  decide +kernel

/-- Two calls stand in front of one with a malformed number. -/
theorem call_index_exact_number :
    ∃ error, read "is(1). is('.').is(-1.2.3)" = .error error ∧ error.call = 2 ∧
      Indexes "is(1). is('.').is(-1.2.3)" error ∧
      read "is(1)" = .ok [⟨"is", [.int 1]⟩] ∧ leadingCalls "is(1)".toList = 1 := by
  have broken : read "is(1). is('.').is(-1.2.3)" =
      .error ⟨2, "is(1). is('.').is(-1.2.3".toList, ⟨.value, [')']⟩⟩ := by decide +kernel
  have whole : read "is(1)" = .ok [⟨"is", [.int 1]⟩] := by decide +kernel
  exact ⟨_, broken, rfl, (call_index_exact _).1 _ broken, whole, (call_index_exact _).2 _ whole⟩

end ChainGrammar.Expression
