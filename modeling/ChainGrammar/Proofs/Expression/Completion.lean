import ChainGrammar.Proofs.Expression.CallIndex

/-!
# The place where reading stops

Reading never runs past a fault: what stands before the place where it stopped is the beginning of an expression,
so that the fault lies behind it (`read_error_completable`).  What is missing depends on what was expected there: a whole
call, an argument list, a closing parenthesis, a digit and that parenthesis, or nothing at all.  The one exception is
a minus sign with a run of digits and points that has two points: the run is taken whole before it is
looked at, and nothing behind it can mend it.

Going up the grammar, each reader's stop is described by what it has read until then (`Malformed`, `Awaits`,
`Unfinished`, `Dotted`).  Each description is then completed to a text of the grammar, or, where the run has two
points, shown to stop the reader whatever follows.
-/

set_option autoImplicit false

namespace ChainGrammar.Expression

/-! ## Numbers behind a minus sign -/

/-- A run of digits and points that is no number behind a minus sign. -/
structure Malformed (run : List Char) : Prop where
  nonempty : run ≠ []
  all : ∀ c ∈ run, isDigitOrPoint c = true
  invalid : negativeValue? run = none

/-- Digits contain no point. -/
theorem count_point_digits {digits : List Char} (all : ∀ c ∈ digits, c.isDigit = true) :
    digits.count '.' = 0 :=
  List.count_eq_zero.2 fun hpoint => absurd (all _ hpoint) (by decide)

/-- What has a value behind a minus sign has at most one point. -/
theorem count_point_of_negativeValue? {run : List Char} {value : Value}
    (h : negativeValue? run = some value) : run.count '.' ≤ 1 := by
  have hsplit : run.takeWhile Char.isDigit ++ run.dropWhile Char.isDigit = run :=
    List.takeWhile_append_dropWhile
  have hwhole : (run.takeWhile Char.isDigit).count '.' = 0 :=
    count_point_digits fun c hc => of_mem_takeWhile hc
  unfold negativeValue? at h
  dsimp only at h
  split at h
  · rename_i hdrop
    rw [← hsplit, hdrop, List.append_nil, hwhole]
    exact Nat.zero_le 1
  · rename_i c fraction hdrop
    split at h
    · rename_i hcond
      rw [Bool.and_eq_true, List.all_eq_true] at hcond
      have hfraction : fraction.count '.' = 0 := count_point_digits hcond.1
      rw [← hsplit, hdrop, List.count_append, hwhole, List.count_cons, hfraction]
      split <;> decide
    · cases h

/-- What is wrong with a malformed run: it is a whole number out of range, a single point, or has two points. -/
theorem Malformed.fault {run : List Char} (h : Malformed run) :
    Digits run ∨ run = ['.'] ∨ 2 ≤ run.count '.' := by
  have hsplit : run.takeWhile Char.isDigit ++ run.dropWhile Char.isDigit = run :=
    List.takeWhile_append_dropWhile
  have invalid := h.invalid
  unfold negativeValue? at invalid
  dsimp only at invalid
  split at invalid
  · rename_i hdrop
    rw [hdrop, List.append_nil] at hsplit
    exact .inl ⟨h.nonempty, fun c hc => of_mem_takeWhile (hsplit ▸ hc)⟩
  · rename_i c fraction hdrop
    have hpoint : c = '.' := by
      have hstop : c.isDigit = false := stopsAt_dropWhile Char.isDigit run c (by rw [hdrop]; rfl)
      have hmem : isDigitOrPoint c = true := h.all c (by rw [← hsplit, hdrop]; simp)
      simpa [isDigitOrPoint, hstop] using hmem
    subst hpoint
    split at invalid
    · cases invalid
    · rename_i hcond
      rw [hdrop] at hsplit
      by_cases digits : fraction.all Char.isDigit = true
      · -- then no digit stands around the point
        rw [digits, Bool.true_and, Bool.not_eq_true', Bool.not_eq_false, List.isEmpty_iff,
          List.append_eq_nil_iff] at hcond
        exact .inr (.inl (by rw [← hsplit, hcond.1, hcond.2, List.nil_append]))
      · -- then the fraction has a character that is none of them, so a second point
        obtain ⟨d, hd, hdigit⟩ : ∃ d ∈ fraction, d.isDigit = false := by simpa using digits
        have hmem : isDigitOrPoint d = true := h.all d (by rw [← hsplit]; simp [hd])
        have hpoint : d = '.' := by simpa [isDigitOrPoint, hdigit] using hmem
        have hfraction : 1 ≤ fraction.count '.' := List.one_le_count_iff.2 (hpoint ▸ hd)
        refine .inr (.inr ?_)
        rw [← hsplit, List.count_append, List.count_cons_self]
        omega

/-- A malformed run without a second point goes on to a number. -/
theorem Malformed.completed {run : List Char} (h : Malformed run) (points : run.count '.' < 2) :
    ∃ more value, Literal ('-' :: run ++ more) value := by
  rcases h.fault with digits | rfl | two
  · have hdigits : Digits (run ++ ['0']) := by
      refine ⟨by simp, fun c hc => ?_⟩
      rcases List.mem_append.1 hc with hc | hc
      · exact digits.2 c hc
      · obtain rfl := List.mem_singleton.1 hc
        decide
    exact ⟨['.', '0'], _, .negativeFloat hdigits⟩
  · have hdigits : Digits ([] ++ ['0']) := ⟨List.cons_ne_nil _ _, List.all_eq_true.1 rfl⟩
    exact ⟨['0'], _, .negativeFloat hdigits⟩
  · omega

/-- A minus sign with two points in the run behind it stops the reader of numbers, whatever follows. -/
theorem negativeNumber_points {run : List Char} (all : ∀ c ∈ run, isDigitOrPoint c = true)
    (points : 2 ≤ run.count '.') (more : List Char) :
    ∃ stop, negativeNumber ('-' :: run ++ more) = .error stop := by
  have htake : (run ++ more).takeWhile isDigitOrPoint = run ++ more.takeWhile isDigitOrPoint :=
    List.takeWhile_append_of_pos all
  have hcount : 2 ≤ (run ++ more.takeWhile isDigitOrPoint).count '.' := by
    rw [List.count_append]
    omega
  have hvalue : negativeValue? (run ++ more.takeWhile isDigitOrPoint) = none := by
    rw [Option.eq_none_iff_forall_ne_some]
    intro value hvalue
    have := count_point_of_negativeValue? hvalue
    omega
  have hnonempty : (run ++ more.takeWhile isDigitOrPoint).isEmpty = false := by
    rw [List.isEmpty_eq_false_iff]
    intro hnil
    rw [hnil] at hcount
    cases hcount
  refine ⟨⟨.value, (run ++ more).dropWhile isDigitOrPoint⟩, ?_⟩
  rw [List.cons_append, negativeNumber]
  simp only [htake, hvalue, hnonempty, Bool.false_eq_true, if_false]

/-- Where the reader of numbers stops, a malformed run stands behind a minus sign. -/
theorem negativeNumber_error {cs : List Char} {stop : Stop} (h : negativeNumber cs = .error stop) :
    stop.expected = .value ∧ ∃ run, cs = '-' :: run ++ stop.rest ∧ Malformed run := by
  unfold negativeNumber at h
  split at h
  · rename_i behind
    dsimp only at h
    split at h
    · cases h
    · rename_i nonempty
      split at h
      · cases h
      · rename_i invalid
        obtain rfl := Except.error.inj h
        refine ⟨rfl, behind.takeWhile isDigitOrPoint, ?_, ?_⟩
        · rw [List.cons_append, List.takeWhile_append_dropWhile]
        · exact ⟨by simpa using nonempty, fun c hc => of_mem_takeWhile hc, invalid⟩
  · cases h

/-- Only the reader of numbers behind a minus sign stops the reader of literals. -/
theorem literal_eq_error_iff {cs : List Char} {stop : Stop} :
    literal cs = .error stop ↔ negativeNumber cs = .error stop := by
  constructor
  · intro h
    unfold literal at h
    split at h
    · cases h
    · split at h
      · rename_i hnegative
        rw [hnegative, Except.error.inj h]
      · cases h
      · cases h
  · intro h
    obtain ⟨_, run, rfl, _⟩ := negativeNumber_error h
    have hfront : (quotedText ('-' :: run ++ stop.rest)).or (truthValue ('-' :: run ++ stop.rest)) = none := by
      rw [List.cons_append, quotedText, if_neg (by decide)]
      rfl
    unfold literal
    simp only [hfront, h]

/-! ## Arguments -/

/-- What stands between parentheses up to a place where a literal may stand. -/
inductive Awaits : List Char → Prop where
  | first {before : List Char} (blanks : Blanks before) : Awaits before
  | other {before cs rest between behind : List Char} {value : Value} {values : List Value}
      (blanks : Blanks before) (literal : Literal cs value) (others : Others rest values)
      (second : Blanks between) (third : Blanks behind) :
      Awaits (before ++ cs ++ rest ++ between ++ ',' :: behind)

/-- A further argument stands behind the others. -/
theorem Others.snoc {others before behind cs : List Char} {value : Value} {values : List Value}
    (h : Others others values) (blanks : Blanks before) (more : Blanks behind)
    (literal : Literal cs value) :
    Others (others ++ before ++ ',' :: behind ++ cs) (values ++ [value]) := by
  induction h with
  | nil => simpa using Others.cons blanks more literal .nil
  | cons blanks' more' literal' _ ih =>
    have h := Others.cons blanks' more' literal' ih
    simpa only [List.append_assoc, List.cons_append] using h

/-- Where a literal may stand, one completes the arguments. -/
theorem Awaits.completed {front cs : List Char} {value : Value} (h : Awaits front)
    (literal : Literal cs value) : ∃ values, Arguments (front ++ cs) values := by
  cases h with
  | first blanks =>
    have h := Arguments.cons blanks literal .nil
    rw [List.append_nil] at h
    exact ⟨_, h⟩
  | other blanks literal' others second third =>
    have h := Arguments.cons blanks literal' (others.snoc second third literal)
    simp only [List.append_assoc, List.cons_append] at h ⊢
    exact ⟨_, h⟩

/-- What stops the reader of numbers stops the reader of arguments behind blanks. -/
theorem argument_stop {blanks cs : List Char} {stop : Stop} (all : Blanks blanks)
    (h : negativeNumber cs = .error stop) : argument (blanks ++ cs) = .error stop := by
  have hstart : StopsAt isBlank cs := by
    obtain ⟨_, run, rfl, _⟩ := negativeNumber_error h
    exact stopsAt_cons (by decide)
  rw [argument, skipBlanks_append all hstart]
  exact literal_eq_error_iff.2 h

/-- Where the reader of arguments stops, a malformed run stands behind blanks and a minus sign. -/
theorem argument_error {cs : List Char} {stop : Stop} (h : argument cs = .error stop) :
    stop.expected = .value ∧
      ∃ blanks run, cs = blanks ++ '-' :: run ++ stop.rest ∧ Blanks blanks ∧ Malformed run := by
  obtain ⟨expected, run, hrun, malformed⟩ := negativeNumber_error (literal_eq_error_iff.1 h)
  obtain ⟨blanks, all, hcs⟩ := exists_blanks cs
  exact ⟨expected, blanks, run, by rw [List.append_assoc, ← hrun, ← hcs], all, malformed⟩

/-- A comma with an argument behind it that cannot be read stops the reader. -/
theorem moreArguments_stop {cs behind : List Char} {stop : Stop} (comma : skipBlanks cs = ',' :: behind)
    (hread : argument behind = .error stop) : moreArguments cs = .error stop := by
  rw [moreArguments.eq_def]
  split
  · rename_i tail hcomma
    obtain ⟨_, rfl⟩ := List.cons.inj (comma.symm.trans hcomma)
    split
    · rename_i hstop
      rw [hread] at hstop
      rw [Except.error.inj hstop]
    · rename_i hnone
      rw [hread] at hnone
      cases hnone
    · rename_i hsome
      rw [hread] at hsome
      cases hsome
  · rename_i hother
    exact absurd comma (hother _)

/-- What stops the reader of numbers stops the reader of further arguments behind a comma. -/
theorem Others.stops {others between behind cs : List Char} {values : List Value} {stop : Stop}
    (h : Others others values) (second : Blanks between) (third : Blanks behind)
    (hstop : negativeNumber cs = .error stop) :
    moreArguments (others ++ (between ++ ',' :: (behind ++ cs))) = .error stop := by
  induction h with
  | nil =>
    exact moreArguments_stop (skipBlanks_append second (stopsAt_cons (by decide)))
      (argument_stop third hstop)
  | @cons before behind' lit others value values beforeAll behindAll literal written ih =>
    have ends : EndsNumber (others ++ (between ++ ',' :: (behind ++ cs))) :=
      written.endsNumber second (by decide)
    have hread := argument_complete behindAll literal ends
    have hskip : skipBlanks (before ++ ',' :: (behind' ++ lit ++ (others ++ (between ++ ',' :: (behind ++ cs))))) =
        ',' :: (behind' ++ lit ++ (others ++ (between ++ ',' :: (behind ++ cs)))) :=
      skipBlanks_append beforeAll (stopsAt_cons (by decide))
    have htext : before ++ ',' :: behind' ++ lit ++ others ++ (between ++ ',' :: (behind ++ cs)) =
        before ++ ',' :: (behind' ++ lit ++ (others ++ (between ++ ',' :: (behind ++ cs)))) := by
      simp only [List.append_assoc, List.cons_append]
    rw [htext, moreArguments_comma hskip hread, ih]

/-- What stops the reader of numbers stops the reader of arguments where a literal may stand. -/
theorem Awaits.stops {front cs : List Char} {stop : Stop} (h : Awaits front)
    (hstop : negativeNumber cs = .error stop) : arguments (front ++ cs) = .error stop := by
  cases h with
  | first blanks => rw [arguments, argument_stop blanks hstop]
  | @other before lit others between behind value values blanks literal written second third =>
    have ends : EndsNumber (others ++ (between ++ ',' :: (behind ++ cs))) :=
      written.endsNumber second (by decide)
    have hread := argument_complete blanks literal ends
    have htext : before ++ lit ++ others ++ between ++ ',' :: behind ++ cs =
        before ++ lit ++ (others ++ (between ++ ',' :: (behind ++ cs))) := by
      simp only [List.append_assoc, List.cons_append]
    rw [htext, arguments, hread]
    simp only [written.stops second third hstop]

/-- Where the reader of further arguments stops, a malformed run stands behind arguments and a comma. -/
theorem moreArguments_error {cs : List Char} {stop : Stop} (h : moreArguments cs = .error stop) :
    stop.expected = .value ∧ ∃ others values between behind run,
      cs = others ++ between ++ ',' :: behind ++ '-' :: run ++ stop.rest ∧ Others others values ∧
        Blanks between ∧ Blanks behind ∧ Malformed run := by
  fun_induction moreArguments cs with
  | case1 cs behind hcomma stopped hread =>
    obtain rfl := Except.error.inj h
    obtain ⟨expected, inner, run, rfl, innerAll, malformed⟩ := argument_error hread
    obtain ⟨blanks, all, hcs⟩ := exists_blanks cs
    refine ⟨expected, [], [], blanks, inner, run, ?_, .nil, all, innerAll, malformed⟩
    rw [hcs, hcomma]
    simp only [List.append_assoc, List.cons_append, List.nil_append]
  | case2 => cases h
  | case3 cs behind hcomma value afterValue hread shorter stopped hmore ih =>
    obtain rfl := Except.error.inj h
    obtain ⟨expected, others, values, between, behind', run, rfl, written, second, third, malformed⟩ :=
      ih hmore
    obtain ⟨inner, lit, rfl, innerAll, literal⟩ := argument_sound hread
    obtain ⟨blanks, all, hcs⟩ := exists_blanks cs
    refine ⟨expected, blanks ++ ',' :: inner ++ lit ++ others, value :: values, between, behind', run, ?_,
      .cons all innerAll literal written, second, third, malformed⟩
    rw [hcs, hcomma]
    simp only [List.append_assoc, List.cons_append]
  | case4 => cases h
  | case5 => cases h

/-- Where the reader of arguments stops, a malformed run stands where a literal may. -/
theorem arguments_error {cs : List Char} {stop : Stop} (h : arguments cs = .error stop) :
    stop.expected = .value ∧
      ∃ front run, cs = front ++ '-' :: run ++ stop.rest ∧ Awaits front ∧ Malformed run := by
  unfold arguments at h
  split at h
  · rename_i hread
    obtain rfl := Except.error.inj h
    obtain ⟨expected, blanks, run, hcs, all, malformed⟩ := argument_error hread
    exact ⟨expected, blanks, run, hcs, .first all, malformed⟩
  · cases h
  · rename_i value afterValue hread
    split at h
    · rename_i hmore
      obtain rfl := Except.error.inj h
      obtain ⟨expected, others, values, between, behind, run, rfl, written, second, third, malformed⟩ :=
        moreArguments_error hmore
      obtain ⟨blanks, lit, rfl, all, literal⟩ := argument_sound hread
      refine ⟨expected, blanks ++ lit ++ others ++ between ++ ',' :: behind, run, ?_,
        .other all literal written second third, malformed⟩
      simp only [List.append_assoc, List.cons_append]
    · cases h

/-! ## Calls -/

/-- The beginning of a call up to the place where something is expected. -/
inductive Unfinished : List Char → Expectation → Prop where
  | methodName {before : List Char} (first : Blanks before) : Unfinished before .methodName
  | argumentList {before name between : List Char} (first : Blanks before) (named : Name name)
      (second : Blanks between) : Unfinished (before ++ name ++ between) .argumentList
  | closingParenthesis {before name between inside behind : List Char} {values : List Value}
      (first : Blanks before) (named : Name name) (second : Blanks between)
      (arguments : Arguments inside values) (third : Blanks behind) :
      Unfinished (before ++ name ++ between ++ '(' :: inside ++ behind) .closingParenthesis
  | value {before name between front run : List Char} (first : Blanks before) (named : Name name)
      (second : Blanks between) (awaits : Awaits front) (malformed : Malformed run) :
      Unfinished (before ++ name ++ between ++ '(' :: front ++ '-' :: run) .value

/-- Where the reader of calls stops, the beginning of a call stands in front. -/
theorem call_error {cs : List Char} {stop : Stop} (h : call cs = .error stop) :
    ∃ part, cs = part ++ stop.rest ∧ Unfinished part stop.expected := by
  obtain ⟨before, beforeAll, hcs⟩ := exists_blanks cs
  unfold call at h
  split at h
  · obtain rfl := Except.error.inj h
    exact ⟨before, hcs, .methodName beforeAll⟩
  · rename_i name afterName hname
    obtain ⟨hskip, named⟩ := methodName_sound hname
    obtain ⟨between, betweenAll, hafter⟩ := exists_blanks afterName
    have htext : cs = before ++ name ++ between ++ skipBlanks afterName := by
      rw [List.append_assoc, ← hafter, List.append_assoc, ← hskip, ← hcs]
    split at h
    · rename_i inside hopen
      rw [hopen] at htext
      split at h
      · rename_i harguments
        obtain rfl := Except.error.inj h
        obtain ⟨expected, front, run, rfl, awaits, malformed⟩ := arguments_error harguments
        rw [expected]
        refine ⟨_, ?_, .value beforeAll named betweenAll awaits malformed⟩
        rw [htext]
        simp only [List.append_assoc, List.cons_append]
      · rename_i values afterArguments harguments
        obtain ⟨inner, rfl, written⟩ := arguments_sound harguments
        obtain ⟨last, lastAll, hlast⟩ := exists_blanks afterArguments
        split at h
        · cases h
        · obtain rfl := Except.error.inj h
          refine ⟨_, ?_, .closingParenthesis beforeAll named betweenAll written lastAll⟩
          rw [htext, hlast, skipBlanks_blanks lastAll, skipBlanks_skipBlanks]
          simp only [List.append_assoc, List.cons_append]
    · obtain rfl := Except.error.inj h
      exact ⟨_, htext, .argumentList beforeAll named betweenAll⟩

/-- A minus sign with a run of digits and points that has two points or more ends the text. -/
def EndsInPoints (text : List Char) : Prop :=
  ∃ front run, text = front ++ '-' :: run ∧ (∀ c ∈ run, isDigitOrPoint c = true) ∧ 2 ≤ run.count '.'

theorem EndsInPoints.append {text : List Char} (h : EndsInPoints text) (before : List Char) :
    EndsInPoints (before ++ text) := by
  obtain ⟨front, run, rfl, all, points⟩ := h
  exact ⟨before ++ front, run, by rw [List.append_assoc], all, points⟩

/-- The run at the end of a text is the only one there. -/
theorem run_unique {front run front' run' : List Char} (h : front ++ '-' :: run = front' ++ '-' :: run')
    (all : ∀ c ∈ run, isDigitOrPoint c = true) (all' : ∀ c ∈ run', isDigitOrPoint c = true) :
    run = run' := by
  have taken : ∀ (front run : List Char), (∀ c ∈ run, isDigitOrPoint c = true) →
      (front ++ '-' :: run).reverse.takeWhile isDigitOrPoint = run.reverse := by
    intro front run all
    have hreverse : (front ++ '-' :: run).reverse = run.reverse ++ '-' :: front.reverse := by simp
    rw [hreverse]
    exact takeWhile_run (fun c hc => all c (List.mem_reverse.1 hc)) (stopsAt_cons (by decide))
  exact List.reverse_inj.1 ((taken front run all).symm.trans (h ▸ taken front' run' all'))

/-- The beginning of a call goes on to a call, unless it ends in a run with two points. -/
theorem Unfinished.completed {part : List Char} {expected : Expectation} (h : Unfinished part expected)
    (fewer : ¬(expected = .value ∧ EndsInPoints part)) : ∃ more call, Written (part ++ more) call := by
  have short : Name ['a'] := .intro (by decide) (by simp)
  cases h with
  | methodName first =>
    have h := Written.intro first short blanks_nil .nil blanks_nil
    exact ⟨['a', '(', ')'], _, by simpa using h⟩
  | argumentList first named second =>
    have h := Written.intro first named second .nil blanks_nil
    exact ⟨['(', ')'], _, by simpa using h⟩
  | closingParenthesis first named second arguments third =>
    exact ⟨[')'], _, .intro first named second arguments third⟩
  | value first named second awaits malformed =>
    have points := Nat.lt_of_not_le fun two => fewer ⟨rfl, _, _, rfl, malformed.all, two⟩
    obtain ⟨more, value, literal⟩ := malformed.completed points
    obtain ⟨values, arguments⟩ := awaits.completed literal
    have h := Written.intro first named second arguments blanks_nil
    simp only [List.append_assoc, List.cons_append, List.nil_append] at h
    exact ⟨more ++ [')'], _, by simpa only [List.append_assoc, List.cons_append] using h⟩

/-- What stops the reader of numbers stops the reader of calls where a literal may stand. -/
theorem Awaits.call_stops {before name between front cs : List Char} {stop : Stop} (h : Awaits front)
    (first : Blanks before) (named : Name name) (second : Blanks between)
    (hstop : negativeNumber cs = .error stop) :
    call (before ++ name ++ between ++ '(' :: front ++ cs) = .error stop := by
  obtain ⟨c, rest, hname, hblank, _⟩ := named.first
  have hstart : skipBlanks (before ++ (name ++ (between ++ '(' :: (front ++ cs)))) =
      name ++ (between ++ '(' :: (front ++ cs)) :=
    skipBlanks_append first (by rw [hname]; exact stopsAt_cons hblank)
  have hopen : skipBlanks (between ++ '(' :: (front ++ cs)) = '(' :: (front ++ cs) :=
    skipBlanks_append second (stopsAt_cons (by decide))
  simp only [List.append_assoc, List.cons_append]
  rw [call, hstart, methodName_complete named (stopsAt_namePart second)]
  simp only [hopen, h.stops hstop]

/-- Behind a run with two points no call is read, whatever follows, and no dot stands in front of it. -/
theorem Unfinished.stops {part : List Char} (h : Unfinished part .value) (points : EndsInPoints part)
    (more : List Char) : (∃ stop, call (part ++ more) = .error stop) ∧
      ∀ behind, skipBlanks (part ++ more) ≠ '.' :: behind := by
  cases h with
  | @value before name between front run first named second awaits malformed =>
    obtain ⟨front', run', heq, all', two⟩ := points
    obtain rfl := run_unique heq malformed.all all'
    obtain ⟨stop, hstop⟩ := negativeNumber_points all' two more
    have htext : before ++ name ++ between ++ '(' :: front ++ '-' :: run ++ more =
        before ++ name ++ between ++ '(' :: front ++ ('-' :: run ++ more) := by
      simp only [List.append_assoc, List.cons_append]
    refine ⟨⟨stop, htext ▸ awaits.call_stops first named second hstop⟩, fun behind hdot => ?_⟩
    obtain ⟨c, rest, rfl, hblank, hother⟩ := named.first
    simp only [List.append_assoc, List.cons_append] at hdot
    rw [skipBlanks_append first (stopsAt_cons hblank)] at hdot
    exact hother (List.cons.inj hdot).1

/-! ## Chains of calls -/

/-- Calls with a dot behind each of them. -/
inductive Dotted : List Char → Prop where
  | nil : Dotted []
  | cons {text between rest : List Char} {call : Call} (written : Written text call)
      (blanks : Blanks between) (others : Dotted rest) : Dotted (text ++ between ++ '.' :: rest)

/-- A call behind the others makes them a chain. -/
theorem Dotted.joined {dotted text : List Char} {call : Call} (h : Dotted dotted)
    (written : Written text call) : ∃ calls, Joined (dotted ++ text) calls := by
  induction h with
  | nil => exact ⟨_, .single written⟩
  | cons written' blanks _ ih =>
    obtain ⟨calls, chain⟩ := ih
    have h := Joined.cons written' blanks chain
    simp only [List.append_assoc, List.cons_append] at h ⊢
    exact ⟨_, h⟩

/-- Where no call can be read behind the others there is no chain. -/
theorem Dotted.stops {dotted cs : List Char} {stop : Stop} (h : Dotted dotted)
    (hcall : call cs = .error stop) : ∃ before, calls (dotted ++ cs) = .error (before, stop) := by
  induction h with
  | nil => exact ⟨0, calls_stop hcall⟩
  | @cons text between rest first written betweenAll _ ih =>
    obtain ⟨before, hrest⟩ := ih
    have hdot : skipBlanks (between ++ '.' :: (rest ++ cs)) = '.' :: (rest ++ cs) :=
      skipBlanks_append betweenAll (stopsAt_cons (by decide))
    have htext : text ++ between ++ '.' :: rest ++ cs = text ++ (between ++ '.' :: (rest ++ cs)) := by
      simp only [List.append_assoc, List.cons_append]
    exact ⟨before + 1, by rw [htext, calls_dot (call_complete written _) hdot, hrest]⟩

theorem Dotted.no_dot {dotted cs : List Char} (h : Dotted dotted)
    (noDot : ∀ behind, skipBlanks cs ≠ '.' :: behind) (behind : List Char) :
    skipBlanks (dotted ++ cs) ≠ '.' :: behind := by
  cases h with
  | nil => exact noDot behind
  | cons written =>
    rw [List.append_assoc, List.append_assoc]
    exact (Joined.single written).no_dot _ behind

/-- Where the reader of chains stops, it does so at a call behind others. -/
theorem calls_error {cs : List Char} {before : Nat} {stop : Stop}
    (h : calls cs = .error (before, stop)) :
    ∃ dotted left, cs = dotted ++ left ∧ Dotted dotted ∧ call left = .error stop := by
  fun_induction calls cs generalizing before with
  | case1 cs stopped hcall =>
    obtain ⟨_, rfl⟩ := Prod.mk.inj (Except.error.inj h)
    exact ⟨[], cs, rfl, .nil, hcall⟩
  | case2 cs first afterFirst hcall behind hdot shorter count stopped hothers ih =>
    obtain ⟨_, rfl⟩ := Prod.mk.inj (Except.error.inj h)
    obtain ⟨dotted, left, rfl, others, hleft⟩ := ih hothers
    obtain ⟨text, rfl, written⟩ := call_sound hcall
    obtain ⟨between, betweenAll, hafter⟩ := exists_blanks afterFirst
    refine ⟨text ++ between ++ '.' :: dotted, left, ?_, .cons written betweenAll others, hleft⟩
    rw [hafter, hdot]
    simp only [List.append_assoc, List.cons_append]
  | case3 => cases h
  | case4 => cases h

/-! ## Expressions -/

/-- The beginning of an expression up to the place where something is expected. -/
inductive Started : List Char → Expectation → Prop where
  | call {opening dotted part : List Char} {expected : Expectation} (front : Opening opening)
      (before : Dotted dotted) (unfinished : Unfinished part expected) :
      Started (opening ++ dotted ++ part) expected
  | whole {text : List Char} {calls : List Call} (denoted : Denotes text calls) :
      Started text .endOfText

/-- Where reading stops, the beginning of an expression stands in front. -/
theorem readChars_error {cs : List Char} {before : Nat} {stop : Stop}
    (h : readChars cs = .error (before, stop)) :
    ∃ front, cs = front ++ stop.rest ∧ Started front stop.expected := by
  obtain ⟨opening, hcs, front⟩ := skipLeadingDot_sound cs
  unfold readChars at h
  split at h
  · rename_i hcalls
    obtain rfl := Except.error.inj h
    obtain ⟨dotted, left, hleft, others, hcall⟩ := calls_error hcalls
    obtain ⟨part, rfl, unfinished⟩ := call_error hcall
    exact ⟨_, by rw [hcs, hleft]; simp only [List.append_assoc], .call front others unfinished⟩
  · cases h
  · rename_i read rest _ hcalls
    obtain ⟨_, rfl⟩ := Prod.mk.inj (Except.error.inj h)
    obtain ⟨joined, blanks, hjoined, chain, all⟩ := calls_sound hcalls
    exact ⟨_, by rw [hcs, hjoined]; simp only [List.append_assoc], .whole (.intro front chain all)⟩

/-- What has been started can be completed, unless a value is expected behind a run with two points. -/
theorem Started.completes_iff {text : List Char} {expected : Expectation} (h : Started text expected) :
    (∃ more calls, Denotes (text ++ more) calls) ↔ ¬(expected = .value ∧ EndsInPoints text) := by
  cases h with
  | @whole _ calls denoted =>
    refine iff_of_true ⟨[], calls, by rwa [List.append_nil]⟩ ?_
    rintro ⟨hvalue, _⟩
    cases hvalue
  | @call opening dotted part _ front others unfinished =>
    constructor
    · rintro ⟨more, calls, denoted⟩ ⟨rfl, points⟩
      -- the run at the end of the whole text is the one that the unfinished call ends in
      have inner : EndsInPoints part := by
        obtain ⟨front', run', heq, all', two⟩ := points
        cases unfinished with
        | @value before name between front run _ _ _ _ malformed =>
          have hsplit : opening ++ dotted ++ (before ++ name ++ between ++ '(' :: front) ++ '-' :: run =
              front' ++ '-' :: run' := by
            rw [← heq]
            simp only [List.append_assoc]
          obtain rfl := run_unique hsplit malformed.all all'
          exact ⟨_, _, rfl, all', two⟩
      obtain ⟨⟨stop, hstop⟩, noDot⟩ := unfinished.stops inner more
      obtain ⟨before, hcalls⟩ := others.stops hstop
      have hread := readChars_of_denotes denoted
      rw [readChars, List.append_assoc, List.append_assoc,
        calls_opening front (others.no_dot noDot), hcalls] at hread
      cases hread
    · intro fewer
      obtain ⟨more, call, written⟩ := unfinished.completed fun ended =>
        fewer ⟨ended.1, ended.2.append _⟩
      obtain ⟨calls, chain⟩ := others.joined written
      have h := Denotes.intro front chain blanks_nil
      refine ⟨more, calls, ?_⟩
      simpa only [List.append_assoc, List.append_nil] using h

/-- The bytes of a text are those of its characters. -/
theorem utf8ByteSize_ofList (cs : List Char) : (String.ofList cs).utf8ByteSize = byteCount cs := by
  induction cs with
  | nil => rfl
  | cons c cs ih =>
    rw [String.ofList_cons, String.utf8ByteSize_append, String.utf8ByteSize_singleton, ih, byteCount]

/-- The place of an error lies between two characters of the text, what stands before it is so many bytes long as
the error says, and this goes on to an expression unless the reader stopped at a number whose run has two points. -/
structure StopsWithin (input : String) (error : ExpressionError) : Prop where
  splits : input = String.ofList error.before ++ String.ofList error.stop.rest
  bytes : (String.ofList error.before).utf8ByteSize = error.offset
  valid : String.Pos.Raw.IsValid input ⟨error.offset⟩
  completes : (∃ more calls, read (String.ofList error.before ++ more) = .ok calls) ↔
    ¬(error.stop.expected = .value ∧ EndsInPoints error.before)

/-- Wherever reading stops, it stops within the text and not beyond the fault. -/
theorem read_error_completable {input : String} {error : ExpressionError}
    (h : read input = .error error) : StopsWithin input error := by
  obtain ⟨count, hchars, hbefore⟩ : ∃ count, readChars input.toList = .error (count, error.stop) ∧
      error.before = textBefore input.toList error.stop.rest := by
    unfold read at h
    dsimp only at h
    split at h
    · cases h
    · rename_i hchars
      obtain rfl := Except.error.inj h
      exact ⟨_, hchars, rfl⟩
  obtain ⟨front, hsplit, started⟩ := readChars_error hchars
  obtain rfl : error.before = front := by
    rw [hbefore, hsplit, textBefore, List.length_append, Nat.add_sub_cancel, List.take_left]
  have splits : input = String.ofList error.before ++ String.ofList error.stop.rest := by
    rw [← String.ofList_append, ← hsplit, String.ofList_toList]
  have bytes : (String.ofList error.before).utf8ByteSize = error.offset := utf8ByteSize_ofList _
  refine ⟨splits, bytes, ?_, ?_⟩
  · rw [String.Pos.Raw.isValid_iff_exists_append]
    exact ⟨_, _, splits, by rw [← bytes]; rfl⟩
  · rw [← started.completes_iff]
    constructor
    · rintro ⟨more, calls, hread⟩
      have denoted := denotes_of_read hread
      rw [String.toList_append, String.toList_ofList] at denoted
      exact ⟨_, _, denoted⟩
    · rintro ⟨more, calls, denoted⟩
      refine ⟨String.ofList more, calls, (read_ok_iff_readChars _ _).2 ?_⟩
      rw [String.toList_append, String.toList_ofList, String.toList_ofList]
      exact readChars_of_denotes denoted

/-- An open text stops the reader in front of it, where a closing parenthesis makes an expression; a number with two
points stops it behind them, where nothing does. -/
theorem read_error_completable_number :
    ∃ opened number, read "a(1).b('x" = .error opened ∧ read "a(-1.2.3)" = .error number ∧
      opened.offset = 7 ∧ number.offset = 8 ∧
      StopsWithin "a(1).b('x" opened ∧ StopsWithin "a(-1.2.3)" number ∧
      (∃ more calls, read (String.ofList opened.before ++ more) = .ok calls) ∧
      ¬∃ more calls, read (String.ofList number.before ++ more) = .ok calls := by
  have hopened : read "a(1).b('x" =
      .error ⟨1, "a(1).b(".toList, ⟨.closingParenthesis, "'x".toList⟩⟩ := by decide +kernel
  have hnumber : read "a(-1.2.3)" = .error ⟨0, "a(-1.2.3".toList, ⟨.value, [')']⟩⟩ := by decide +kernel
  have within := read_error_completable hopened
  have within' := read_error_completable hnumber
  refine ⟨_, _, hopened, hnumber, by decide +kernel, by decide +kernel, within, within',
    within.completes.2 ?_, fun completes => within'.completes.1 completes ⟨rfl, ?_⟩⟩
  · rintro ⟨hvalue, _⟩
    cases hvalue
  · exact ⟨['a', '('], ['1', '.', '2', '.', '3'], by decide +kernel, List.all_eq_true.1 rfl, by decide⟩

end ChainGrammar.Expression
