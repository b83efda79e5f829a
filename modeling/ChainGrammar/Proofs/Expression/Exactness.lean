import ChainGrammar.Expression.Error
import ChainGrammar.Proofs.Expression.Literals

/-!
# The reader accepts exactly the chain expressions

`Expression.read` tries alternatives in a fixed order, takes runs as long as they go, gives up a
separator whose argument is missing and cannot take back a call behind a dot.  None of this loses an
expression or admits another text: it answers calls exactly where the grammar derives the text, and
then it answers the calls that the text denotes, which are unique (`read_eq_ok_iff`).

Both directions go up the grammar one level at a time: arguments, argument lists, calls, chains.
Soundness splits what was read off the front of the text.  Completeness says what a reader
answers in front of any text that may follow there: behind an argument come blanks, a comma or a
parenthesis, so that numbers end there.
-/

set_option autoImplicit false

namespace ChainGrammar.Expression

/-! ## Blanks -/

/-- The blanks in front of a text and what is left behind them. -/
theorem exists_blanks (cs : List Char) : ∃ blanks, Blanks blanks ∧ cs = blanks ++ skipBlanks cs :=
  ⟨cs.takeWhile isBlank, fun _ hc => of_mem_takeWhile hc, List.takeWhile_append_dropWhile.symm⟩

/-- Blanks are skipped up to what is none. -/
theorem skipBlanks_append {blanks rest : List Char} (all : Blanks blanks)
    (stops : StopsAt isBlank rest) : skipBlanks (blanks ++ rest) = rest :=
  dropWhile_run all stops

/-- Blanks in front are skipped with those behind them. -/
theorem skipBlanks_blanks {blanks : List Char} (all : Blanks blanks) (cs : List Char) :
    skipBlanks (blanks ++ cs) = skipBlanks cs :=
  List.dropWhile_append_of_pos all

theorem blanks_nil : Blanks [] := by
  intro c hc
  cases hc

/-- Where no blank stands in front none is skipped. -/
theorem skipBlanks_stop {cs : List Char} (stops : StopsAt isBlank cs) : skipBlanks cs = cs :=
  skipBlanks_append blanks_nil stops

/-- Skipping blanks once is enough. -/
theorem skipBlanks_skipBlanks (cs : List Char) : skipBlanks (skipBlanks cs) = skipBlanks cs :=
  skipBlanks_stop (stopsAt_dropWhile isBlank cs)

/-- A text whose first character is no blank. -/
theorem stopsAt_cons {kind : Char → Bool} {c : Char} {cs : List Char} (h : kind c = false) :
    StopsAt kind (c :: cs) := by
  intro d hd
  obtain rfl : c = d := by simpa using hd
  exact h

/-- Behind an argument stand blanks and then a mark that no number contains, so numbers end there. -/
theorem endsNumber_of_blanks {blanks rest : List Char} {mark : Char} (all : Blanks blanks)
    (hmark : isDigitOrPoint mark = false) : EndsNumber (blanks ++ mark :: rest) := by
  cases blanks with
  | nil => exact stopsAt_cons hmark
  | cons c blanks =>
    have hc : isBlank c = true := all c List.mem_cons_self
    refine stopsAt_cons ?_
    simp only [isBlank, Bool.or_eq_true, beq_iff_eq] at hc
    rcases hc with (((rfl | rfl) | rfl) | rfl) | rfl <;> decide

/-- A literal begins with a character that is no blank. -/
theorem Literal.stopsAt_blank {lit rest : List Char} {value : Value} (written : Literal lit value) :
    StopsAt isBlank (lit ++ rest) := by
  have digit : ∀ {c : Char}, c.isDigit = true → isBlank c = false := by
    intro c hc
    cases hb : isBlank c with
    | false => rfl
    | true =>
      simp only [isBlank, Bool.or_eq_true, beq_iff_eq] at hb
      rcases hb with (((rfl | rfl) | rfl) | rfl) | rfl <;> cases hc
  have digits : ∀ {run behind : List Char}, Digits run → StopsAt isBlank (run ++ behind) := by
    intro run behind h
    obtain ⟨c, run, rfl⟩ := List.exists_cons_of_ne_nil h.1
    exact stopsAt_cons (digit (h.2 c List.mem_cons_self))
  cases written with
  | text mark _ => rcases mark with rfl | rfl <;> exact stopsAt_cons (by decide)
  | yes => exact stopsAt_cons (by decide)
  | no => exact stopsAt_cons (by decide)
  | negativeFloat => exact stopsAt_cons (by decide)
  | negativeInt => exact stopsAt_cons (by decide)
  | float before =>
    rw [List.append_assoc]
    exact digits before
  | zero => exact stopsAt_cons (by decide)
  | int plus run =>
    rcases plus with rfl | rfl
    · exact digits run
    · exact stopsAt_cons (by decide)

/-! ## Arguments -/

/-- An argument that is read is a literal behind blanks. -/
theorem argument_sound {cs rest : List Char} {value : Value}
    (h : argument cs = .ok (some (value, rest))) :
    ∃ blanks lit, cs = blanks ++ lit ++ rest ∧ Blanks blanks ∧ Literal lit value := by
  obtain ⟨lit, hlit, written⟩ := literal_sound h
  obtain ⟨blanks, all, hcs⟩ := exists_blanks cs
  exact ⟨blanks, lit, by rw [List.append_assoc, ← hlit, ← hcs], all, written⟩

/-- A literal behind blanks is read as an argument. -/
theorem argument_complete {blanks lit rest : List Char} {value : Value} (all : Blanks blanks)
    (written : Literal lit value) (ends : EndsNumber rest) :
    argument (blanks ++ lit ++ rest) = .ok (some (value, rest)) := by
  rw [argument, List.append_assoc, skipBlanks_append all written.stopsAt_blank]
  exact literal_complete written ends

/-- In front of a closing parenthesis there is no argument. -/
theorem argument_closing {blanks rest : List Char} (all : Blanks blanks) :
    argument (blanks ++ ')' :: rest) = .ok none := by
  rw [argument, skipBlanks_append all (stopsAt_cons (by decide))]
  rfl

/-- A comma with an argument behind it is read together with the arguments that follow. -/
theorem moreArguments_comma {cs behind rest : List Char} {value : Value}
    (comma : skipBlanks cs = ',' :: behind) (hread : argument behind = .ok (some (value, rest))) :
    moreArguments cs =
      match moreArguments rest with
      | .error stop => .error stop
      | .ok (values, rest) => .ok (value :: values, rest) := by
  rw [moreArguments.eq_def]
  split
  · rename_i tail hcomma
    obtain ⟨_, rfl⟩ := List.cons.inj (comma.symm.trans hcomma)
    split
    · rename_i hstop
      rw [hread] at hstop
      cases hstop
    · rename_i hnone
      rw [hread] at hnone
      cases hnone
    · rename_i hsome
      rw [hread] at hsome
      obtain ⟨rfl, rfl⟩ := Prod.mk.inj (Option.some.inj (Except.ok.inj hsome))
      rfl
  · rename_i hother
    exact absurd comma (hother _)

/-- Where no comma follows there are no further arguments. -/
theorem moreArguments_other {cs : List Char} (other : ∀ behind, skipBlanks cs ≠ ',' :: behind) :
    moreArguments cs = .ok ([], cs) := by
  rw [moreArguments.eq_def]
  split
  · rename_i hcomma
    exact absurd hcomma (other _)
  · rfl

/-- Where a further argument is read there is a comma with that argument behind it. -/
theorem moreArguments_cons {cs left : List Char} {value : Value} {values : List Value}
    (h : moreArguments cs = .ok (value :: values, left)) :
    ∃ behind rest, skipBlanks cs = ',' :: behind ∧ argument behind = .ok (some (value, rest)) ∧
      moreArguments rest = .ok (values, left) := by
  rw [moreArguments.eq_def] at h
  split at h
  · rename_i behind comma
    split at h
    · cases h
    · cases h
    · rename_i hread
      split at h
      · cases h
      · rename_i hmore
        cases h
        exact ⟨behind, _, comma, hread, hmore⟩
  · cases h

/-- Further arguments that are read stand behind a comma each. -/
theorem moreArguments_sound {cs rest : List Char} {values : List Value}
    (h : moreArguments cs = .ok (values, rest)) :
    ∃ others, cs = others ++ rest ∧ Others others values := by
  fun_induction moreArguments cs generalizing values rest with
  | case1 => cases h
  | case2 =>
    obtain ⟨rfl, rfl⟩ := Prod.mk.inj (Except.ok.inj h)
    exact ⟨[], rfl, .nil⟩
  | case3 => cases h
  | case4 cs behind hcomma value afterValue hread shorter more left hmore ih =>
    obtain ⟨rfl, rfl⟩ := Prod.mk.inj (Except.ok.inj h)
    obtain ⟨others, rfl, written⟩ := ih hmore
    obtain ⟨inner, lit, rfl, innerAll, literal⟩ := argument_sound hread
    obtain ⟨blanks, all, hcs⟩ := exists_blanks cs
    refine ⟨blanks ++ ',' :: inner ++ lit ++ others, ?_, .cons all innerAll literal written⟩
    rw [hcs, hcomma]
    simp only [List.append_assoc, List.cons_append]
  | case5 =>
    obtain ⟨rfl, rfl⟩ := Prod.mk.inj (Except.ok.inj h)
    exact ⟨[], rfl, .nil⟩

/-- Numbers end in front of further arguments and of the mark behind these. -/
theorem Others.endsNumber {others blanks rest : List Char} {values : List Value} {mark : Char}
    (written : Others others values) (all : Blanks blanks) (hmark : isDigitOrPoint mark = false) :
    EndsNumber (others ++ (blanks ++ mark :: rest)) := by
  cases written with
  | nil => exact endsNumber_of_blanks all hmark
  | cons before =>
    simp only [List.append_assoc, List.cons_append]
    exact endsNumber_of_blanks before (by decide)

/-- Further arguments are read up to the blanks in front of the closing parenthesis. -/
theorem moreArguments_complete {others blanks rest : List Char} {values : List Value}
    (written : Others others values) (all : Blanks blanks) :
    moreArguments (others ++ (blanks ++ ')' :: rest)) = .ok (values, blanks ++ ')' :: rest) := by
  induction written with
  | nil =>
    have hskip : skipBlanks (blanks ++ ')' :: rest) = ')' :: rest :=
      skipBlanks_append all (stopsAt_cons (by decide))
    refine moreArguments_other fun behind hcomma => ?_
    rw [List.nil_append, hskip] at hcomma
    cases hcomma
  | @cons before behind lit others value values beforeAll behindAll literal written ih =>
    have ends : EndsNumber (others ++ (blanks ++ ')' :: rest)) := written.endsNumber all (by decide)
    have hread := argument_complete behindAll literal ends
    have hskip : skipBlanks (before ++ ',' :: (behind ++ lit ++ (others ++ (blanks ++ ')' :: rest)))) =
        ',' :: (behind ++ lit ++ (others ++ (blanks ++ ')' :: rest))) :=
      skipBlanks_append beforeAll (stopsAt_cons (by decide))
    have htext : before ++ ',' :: behind ++ lit ++ others ++ (blanks ++ ')' :: rest) =
        before ++ ',' :: (behind ++ lit ++ (others ++ (blanks ++ ')' :: rest))) := by
      simp only [List.append_assoc, List.cons_append]
    rw [htext, moreArguments_comma hskip hread, ih]

/-- Where arguments are read the first one stands in front. -/
theorem arguments_cons {cs left : List Char} {value : Value} {values : List Value}
    (h : arguments cs = .ok (value :: values, left)) :
    ∃ rest, argument cs = .ok (some (value, rest)) ∧ moreArguments rest = .ok (values, left) := by
  unfold arguments at h
  split at h
  · cases h
  · cases h
  · rename_i hread
    split at h
    · cases h
    · rename_i hmore
      cases h
      exact ⟨_, hread, hmore⟩

/-- Arguments that are read stand in front of what is left. -/
theorem arguments_sound {cs rest : List Char} {values : List Value}
    (h : arguments cs = .ok (values, rest)) :
    ∃ inside, cs = inside ++ rest ∧ Arguments inside values := by
  unfold arguments at h
  split at h
  · cases h
  · obtain ⟨rfl, rfl⟩ := Prod.mk.inj (Except.ok.inj h)
    exact ⟨[], rfl, .nil⟩
  · rename_i value afterValue hread
    split at h
    · cases h
    · rename_i more left hmore
      obtain ⟨rfl, rfl⟩ := Prod.mk.inj (Except.ok.inj h)
      obtain ⟨others, rfl, written⟩ := moreArguments_sound hmore
      obtain ⟨blanks, lit, rfl, all, literal⟩ := argument_sound hread
      exact ⟨blanks ++ lit ++ others, by simp only [List.append_assoc], .cons all literal written⟩

/-- Arguments are read up to the blanks in front of the closing parenthesis. -/
theorem arguments_complete {inside blanks rest : List Char} {values : List Value}
    (written : Arguments inside values) (all : Blanks blanks) :
    arguments (inside ++ (blanks ++ ')' :: rest)) = .ok (values, blanks ++ ')' :: rest) := by
  cases written with
  | nil =>
    rw [List.nil_append, arguments, argument_closing all]
  | @cons before lit others value values beforeAll literal written =>
    rw [List.append_assoc, arguments,
      argument_complete beforeAll literal (written.endsNumber all (by decide))]
    simp only [moreArguments_complete written all]

/-! ## Calls -/

/-- A method name that is read is one, and no part of it is left. -/
theorem methodName_sound {cs name rest : List Char} (h : methodName cs = some (name, rest)) :
    cs = name ++ rest ∧ Name name := by
  cases cs with
  | nil => cases h
  | cons c cs =>
    rw [methodName] at h
    split at h
    · rename_i start
      obtain ⟨rfl, rfl⟩ := Prod.mk.inj (Option.some.inj h)
      exact ⟨by rw [List.cons_append, List.takeWhile_append_dropWhile],
        .intro start fun d hd => of_mem_takeWhile hd⟩
    · cases h

/-- A method name is read whole where no part of a name follows. -/
theorem methodName_complete {name rest : List Char} (named : Name name)
    (stops : StopsAt isNamePart rest) : methodName (name ++ rest) = some (name, rest) := by
  cases named with
  | intro start parts =>
    rw [List.cons_append, methodName, if_pos start, takeWhile_run parts stops,
      dropWhile_run parts stops]

/-- A method name begins with a character that is neither a blank nor a dot. -/
theorem Name.first {name : List Char} (named : Name name) :
    ∃ c cs, name = c :: cs ∧ isBlank c = false ∧ c ≠ '.' := by
  cases named with
  | @intro c cs start _ =>
    refine ⟨c, cs, rfl, ?_, ?_⟩
    · cases hb : isBlank c with
      | false => rfl
      | true =>
        simp only [isBlank, Bool.or_eq_true, beq_iff_eq] at hb
        rcases hb with (((rfl | rfl) | rfl) | rfl) | rfl <;> cases start
    · rintro rfl
      cases start

/-- Blanks and an opening parenthesis end a method name. -/
theorem stopsAt_namePart {blanks rest : List Char} (all : Blanks blanks) :
    StopsAt isNamePart (blanks ++ '(' :: rest) := by
  cases blanks with
  | nil => exact stopsAt_cons (by decide)
  | cons c blanks =>
    have hc : isBlank c = true := all c List.mem_cons_self
    refine stopsAt_cons ?_
    simp only [isBlank, Bool.or_eq_true, beq_iff_eq] at hc
    rcases hc with (((rfl | rfl) | rfl) | rfl) | rfl <;> decide

/-- The parts of a call that is read. -/
theorem call_parts {cs behind : List Char} {read : Call} (h : call cs = .ok (read, behind)) :
    ∃ name rest inside left, methodName (skipBlanks cs) = some (name, rest) ∧
      skipBlanks rest = '(' :: inside ∧ arguments inside = .ok (read.args, left) ∧
      skipBlanks left = ')' :: behind ∧ read.method = String.ofList name := by
  unfold call at h
  split at h
  · cases h
  · rename_i name rest hname
    split at h
    · rename_i inside hopen
      split at h
      · cases h
      · rename_i values left harguments
        split at h
        · rename_i hclose
          cases h
          exact ⟨name, rest, inside, left, hname, hopen, harguments, hclose, rfl⟩
        · cases h
    · cases h

/-- A call that is read is written in front of what is left. -/
theorem call_sound {cs rest : List Char} {read : Call} (h : call cs = .ok (read, rest)) :
    ∃ text, cs = text ++ rest ∧ Written text read := by
  obtain ⟨name, afterName, inside, afterArguments, hname, hopen, harguments, hclose, hmethod⟩ :=
    call_parts h
  obtain ⟨before, beforeAll, hcs⟩ := exists_blanks cs
  obtain ⟨hskip, named⟩ := methodName_sound hname
  obtain ⟨between, betweenAll, hafter⟩ := exists_blanks afterName
  obtain ⟨inner, rfl, written⟩ := arguments_sound harguments
  obtain ⟨last, lastAll, hlast⟩ := exists_blanks afterArguments
  obtain ⟨method, args⟩ := read
  obtain rfl : method = String.ofList name := hmethod
  refine ⟨before ++ name ++ between ++ '(' :: inner ++ last ++ [')'], ?_,
    .intro beforeAll named betweenAll written lastAll⟩
  rw [hcs, hskip, hafter, hopen, hlast, hclose]
  simp only [List.append_assoc, List.cons_append, List.nil_append]

/-- A written call is read whole, whatever follows it. -/
theorem call_complete {text : List Char} {written : Call} (h : Written text written)
    (rest : List Char) : call (text ++ rest) = .ok (written, rest) := by
  cases h with
  | @intro before name between inside behind values beforeAll named betweenAll arguments behindAll =>
    obtain ⟨c, cs, hname, hblank, _⟩ := named.first
    have hstart : skipBlanks (before ++ (name ++ (between ++ '(' :: (inside ++ (behind ++ ')' :: rest)))))
        = name ++ (between ++ '(' :: (inside ++ (behind ++ ')' :: rest))) :=
      skipBlanks_append beforeAll (by rw [hname]; exact stopsAt_cons hblank)
    have hopen : skipBlanks (between ++ '(' :: (inside ++ (behind ++ ')' :: rest))) =
        '(' :: (inside ++ (behind ++ ')' :: rest)) :=
      skipBlanks_append betweenAll (stopsAt_cons (by decide))
    have hclose : skipBlanks (behind ++ ')' :: rest) = ')' :: rest :=
      skipBlanks_append behindAll (stopsAt_cons (by decide))
    simp only [List.append_assoc, List.cons_append, List.nil_append]
    rw [call, hstart, methodName_complete named (stopsAt_namePart betweenAll)]
    simp only [hopen, arguments_complete arguments behindAll, hclose]

/-- Blanks in front of a call do not matter. -/
theorem call_skipBlanks (cs : List Char) : call (skipBlanks cs) = call cs := by
  rw [call, call, skipBlanks_skipBlanks]

/-! ## Chains of calls -/

/-- Where no call can be read there is no chain. -/
theorem calls_stop {cs : List Char} {stop : Stop} (hcall : call cs = .error stop) :
    calls cs = .error (0, stop) := by
  rw [calls.eq_def]
  split
  · rename_i hstop
    rw [hcall] at hstop
    rw [Except.error.inj hstop]
  · rename_i hread
    rw [hcall] at hread
    cases hread

/-- A call with a dot behind it is read together with the calls that follow. -/
theorem calls_dot {cs rest behind : List Char} {first : Call} (hcall : call cs = .ok (first, rest))
    (dot : skipBlanks rest = '.' :: behind) :
    calls cs =
      match calls behind with
      | .error (before, stop) => .error (before + 1, stop)
      | .ok (others, rest) => .ok (first :: others, rest) := by
  rw [calls.eq_def]
  split
  · rename_i hstop
    rw [hcall] at hstop
    cases hstop
  · rename_i hread
    obtain ⟨rfl, rfl⟩ := Prod.mk.inj (Except.ok.inj (hcall.symm.trans hread))
    split
    · rename_i hdot
      obtain ⟨_, rfl⟩ := List.cons.inj (dot.symm.trans hdot)
      rfl
    · rename_i hother
      exact absurd dot (hother _)

/-- A call without a dot behind it is the last one. -/
theorem calls_last {cs rest : List Char} {first : Call} (hcall : call cs = .ok (first, rest))
    (other : ∀ behind, skipBlanks rest ≠ '.' :: behind) :
    calls cs = .ok ([first], skipBlanks rest) := by
  rw [calls.eq_def]
  split
  · rename_i hstop
    rw [hcall] at hstop
    cases hstop
  · rename_i hread
    obtain ⟨rfl, rfl⟩ := Prod.mk.inj (Except.ok.inj (hcall.symm.trans hread))
    split
    · rename_i hdot
      exact absurd hdot (other _)
    · rfl

/-- Where calls are read the first one stands in front, and a dot in front of the others. -/
theorem calls_cons {cs left : List Char} {first : Call} {others : List Call}
    (h : calls cs = .ok (first :: others, left)) :
    ∃ rest, call cs = .ok (first, rest) ∧
      ∀ behind, skipBlanks rest = '.' :: behind → calls behind = .ok (others, left) := by
  cases hcall : call cs with
  | error stop =>
    rw [calls_stop hcall] at h
    cases h
  | ok read =>
    obtain ⟨read, rest⟩ := read
    by_cases dot : ∃ behind, skipBlanks rest = '.' :: behind
    · obtain ⟨behind, dot⟩ := dot
      rw [calls_dot hcall dot] at h
      split at h
      · cases h
      · rename_i hothers
        cases h
        refine ⟨rest, rfl, fun behind' dot' => ?_⟩
        obtain rfl := (List.cons.inj (dot.symm.trans dot')).2
        exact hothers
    · rw [calls_last hcall fun behind h => dot ⟨behind, h⟩] at h
      cases h
      exact ⟨rest, rfl, fun behind h => absurd ⟨behind, h⟩ dot⟩

/-- Calls that are read are joined by dots, with blanks in front of what is left. -/
theorem calls_sound {cs rest : List Char} {read : List Call} (h : calls cs = .ok (read, rest)) :
    ∃ joined blanks, cs = joined ++ blanks ++ rest ∧ Joined joined read ∧ Blanks blanks := by
  fun_induction calls cs generalizing read rest with
  | case1 => cases h
  | case2 => cases h
  | case3 cs first afterFirst hcall behind hdot shorter others left hothers ih =>
    obtain ⟨rfl, rfl⟩ := Prod.mk.inj (Except.ok.inj h)
    obtain ⟨joined, blanks, rfl, chain, all⟩ := ih hothers
    obtain ⟨text, rfl, written⟩ := call_sound hcall
    obtain ⟨between, betweenAll, hafter⟩ := exists_blanks afterFirst
    refine ⟨text ++ between ++ '.' :: joined, blanks, ?_, .cons written betweenAll chain, all⟩
    rw [hafter, hdot]
    simp only [List.append_assoc, List.cons_append]
  | case4 cs first afterFirst hcall hother =>
    obtain ⟨rfl, rfl⟩ := Prod.mk.inj (Except.ok.inj h)
    obtain ⟨text, rfl, written⟩ := call_sound hcall
    obtain ⟨blanks, all, hafter⟩ := exists_blanks afterFirst
    exact ⟨text, blanks, by rw [List.append_assoc, ← hafter], .single written, all⟩

/-- Calls that are joined by dots are read to the end of the text. -/
theorem calls_complete {joined blanks : List Char} {written : List Call}
    (h : Joined joined written) (all : Blanks blanks) :
    calls (joined ++ blanks) = .ok (written, []) := by
  have hend : skipBlanks blanks = [] := List.dropWhile_eq_nil_iff.2 all
  induction h with
  | @single text first written =>
    rw [calls_last (call_complete written blanks) (fun behind hdot => ?_), hend]
    rw [hend] at hdot
    cases hdot
  | @cons text between rest first others written betweenAll chain ih =>
    have hdot : skipBlanks (between ++ '.' :: (rest ++ blanks)) = '.' :: (rest ++ blanks) :=
      skipBlanks_append betweenAll (stopsAt_cons (by decide))
    have htext : text ++ between ++ '.' :: rest ++ blanks =
        text ++ (between ++ '.' :: (rest ++ blanks)) := by
      simp only [List.append_assoc, List.cons_append]
    rw [htext, calls_dot (call_complete written _) hdot, ih]

/-- Blanks in front of a chain of calls do not matter. -/
theorem calls_skipBlanks (cs : List Char) : calls (skipBlanks cs) = calls cs := by
  cases hcall : call cs with
  | error stop => rw [calls_stop hcall, calls_stop ((call_skipBlanks cs).trans hcall)]
  | ok read =>
    obtain ⟨first, rest⟩ := read
    have hskipped := (call_skipBlanks cs).trans hcall
    by_cases dot : ∃ behind, skipBlanks rest = '.' :: behind
    · obtain ⟨behind, dot⟩ := dot
      rw [calls_dot hcall dot, calls_dot hskipped dot]
    · have other : ∀ behind, skipBlanks rest ≠ '.' :: behind := fun behind h => dot ⟨behind, h⟩
      rw [calls_last hcall other, calls_last hskipped other]

/-! ## Expressions -/

/-- A dot behind the first blanks is skipped with them. -/
theorem skipLeadingDot_dot {cs rest : List Char} (dot : skipBlanks cs = '.' :: rest) :
    skipLeadingDot cs = rest := by
  unfold skipLeadingDot
  simp only [dot]

/-- Where no dot stands behind the first blanks, only they are skipped. -/
theorem skipLeadingDot_other {cs : List Char} (other : ∀ rest, skipBlanks cs ≠ '.' :: rest) :
    skipLeadingDot cs = skipBlanks cs := by
  rw [skipLeadingDot]
  split
  · rename_i hdot
    exact absurd hdot (other _)
  · rfl

/-- What is skipped in front of the first call is an opening. -/
theorem skipLeadingDot_sound (cs : List Char) :
    ∃ opening, cs = opening ++ skipLeadingDot cs ∧ Opening opening := by
  obtain ⟨blanks, all, hcs⟩ := exists_blanks cs
  unfold skipLeadingDot
  split
  · rename_i rest hdot
    exact ⟨blanks ++ ['.'], by rw [List.append_assoc, List.singleton_append, ← hdot, ← hcs], .dot all⟩
  · exact ⟨blanks, hcs, .blanks all⟩

/-- Joined calls begin with blanks and a name. -/
theorem Joined.front {joined : List Char} {calls : List Call} (h : Joined joined calls) :
    ∃ before name rest, joined = before ++ name ++ rest ∧ Blanks before ∧ Name name := by
  have call : ∀ {text : List Char} {call : Call} (behind : List Char), Written text call →
      ∃ before name rest, text ++ behind = before ++ name ++ rest ∧ Blanks before ∧ Name name := by
    rintro _ _ behind ⟨first, named, _, _, _⟩
    exact ⟨_, _, _, by simp only [List.append_assoc]; rfl, first, named⟩
  cases h with
  | single written => simpa using call [] written
  | @cons text between rest _ _ written =>
    rw [List.append_assoc]
    exact call _ written

/-- No dot stands behind the blanks in front of joined calls. -/
theorem Joined.no_dot {joined : List Char} {calls : List Call} (h : Joined joined calls)
    (rest behind : List Char) : skipBlanks (joined ++ rest) ≠ '.' :: behind := by
  obtain ⟨before, name, left, rfl, all, named⟩ := h.front
  obtain ⟨c, cs, rfl, hblank, hdot⟩ := named.first
  rw [List.append_assoc, List.append_assoc, List.cons_append,
    skipBlanks_append all (stopsAt_cons hblank)]
  exact fun heq => hdot (List.cons.inj heq).1

/-- Behind an opening a text that begins with no dot is read as it is without the opening. -/
theorem calls_opening {opening text : List Char} (front : Opening opening)
    (noDot : ∀ behind, skipBlanks text ≠ '.' :: behind) :
    calls (skipLeadingDot (opening ++ text)) = calls text := by
  cases front with
  | blanks all =>
    have hskip := skipBlanks_blanks all text
    rw [skipLeadingDot_other (by rw [hskip]; exact noDot), hskip, calls_skipBlanks]
  | @dot front all =>
    have hskip : skipBlanks (front ++ ['.'] ++ text) = '.' :: text := by
      rw [List.append_assoc]
      exact skipBlanks_append all (stopsAt_cons (by decide))
    rw [skipLeadingDot_dot hskip]

/-- Behind an opening the calls are read as they are without it. -/
theorem calls_skipLeadingDot {opening joined blanks : List Char} {written : List Call}
    (front : Opening opening) (h : Joined joined written) :
    calls (skipLeadingDot (opening ++ (joined ++ blanks))) = calls (joined ++ blanks) :=
  calls_opening front (h.no_dot blanks)

/-- A text that is read is an expression and denotes the calls read. -/
theorem denotes_of_readChars {cs : List Char} {read : List Call} (h : readChars cs = .ok read) :
    Denotes cs read := by
  unfold readChars at h
  split at h
  · cases h
  · rename_i answered hcalls
    obtain rfl := Except.ok.inj h
    obtain ⟨opening, hcs, front⟩ := skipLeadingDot_sound cs
    obtain ⟨joined, blanks, hjoined, chain, all⟩ := calls_sound hcalls
    rw [hcs, hjoined, List.append_nil, ← List.append_assoc]
    exact .intro front chain all
  · cases h

/-- An expression is read as the calls that it denotes. -/
theorem readChars_of_denotes {cs : List Char} {denoted : List Call} (h : Denotes cs denoted) :
    readChars cs = .ok denoted := by
  cases h with
  | intro front chain all =>
    rw [readChars, List.append_assoc, calls_skipLeadingDot front chain, calls_complete chain all]

/-- The grammar of expressions is unambiguous about the calls. -/
theorem Denotes.unique {cs : List Char} {first second : List Call} (h₁ : Denotes cs first)
    (h₂ : Denotes cs second) : first = second :=
  Except.ok.inj ((readChars_of_denotes h₁).symm.trans (readChars_of_denotes h₂))

/-- A text is read exactly if the grammar derives it, and what is read are
the calls that it denotes, which no other derivation changes. -/
theorem read_eq_ok_iff (input : String) (calls : List Call) :
    read input = .ok calls ↔
      Denotes input.toList calls ∧ ∀ other, Denotes input.toList other → other = calls := by
  have hread : read input = .ok calls ↔ readChars input.toList = .ok calls := by
    unfold read
    dsimp only
    split
    · rename_i read hchars
      rw [hchars]
      simp only [Except.ok.injEq]
    · rename_i before stop hchars
      rw [hchars]
      simp only [reduceCtorEq]
  rw [hread]
  constructor
  · intro h
    have denoted := denotes_of_readChars h
    exact ⟨denoted, fun other derived => derived.unique denoted⟩
  · rintro ⟨denoted, -⟩
    exact readChars_of_denotes denoted

end ChainGrammar.Expression
