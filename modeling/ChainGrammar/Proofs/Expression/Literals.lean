import ChainGrammar.Expression.Grammar
import Mathlib.Data.List.TakeWhile

/-!
# Reading literals

The reader of literals answers what the grammar of literals says, in both directions: what it has
read is a literal with the answered value (`literal_sound`), and a literal is read in full and with its
value wherever it ends (`literal_complete`).

A literal that is a number ends where neither a digit nor a point follows.  This is the only thing
that the order of the readers and their greedy runs ask of what comes behind it, since the first
character of a literal already tells its kind.
-/

set_option autoImplicit false

namespace ChainGrammar.Expression

/-! ## Runs of characters -/

/-- No character of the kind stands in front of the text. -/
def StopsAt (kind : Char → Bool) (cs : List Char) : Prop := ∀ c ∈ cs.head?, kind c = false

/-- A run of a kind is taken whole where the text behind it does not go on with that kind. -/
theorem takeWhile_run {kind : Char → Bool} {run rest : List Char} (all : ∀ c ∈ run, kind c = true)
    (stops : StopsAt kind rest) : (run ++ rest).takeWhile kind = run := by
  rw [List.takeWhile_append_of_pos all]
  cases rest with
  | nil => simp
  | cons c rest =>
    have hc : kind c = false := stops c rfl
    simp [hc]

/-- Behind a run of a kind stands what does not go on with that kind. -/
theorem dropWhile_run {kind : Char → Bool} {run rest : List Char} (all : ∀ c ∈ run, kind c = true)
    (stops : StopsAt kind rest) : (run ++ rest).dropWhile kind = rest := by
  rw [List.dropWhile_append_of_pos all]
  cases rest with
  | nil => rfl
  | cons c rest =>
    have hc : kind c = false := stops c rfl
    simp [hc]

/-- What is left behind a run of a kind does not go on with that kind. -/
theorem stopsAt_dropWhile (kind : Char → Bool) (cs : List Char) :
    StopsAt kind (cs.dropWhile kind) := by
  intro c hc
  have := List.head?_dropWhile_not kind cs
  rw [Option.mem_def.1 hc] at this
  simpa using this

/-- The characters of a run taken from a text are of its kind. -/
theorem of_mem_takeWhile {kind : Char → Bool} {cs : List Char} {c : Char}
    (h : c ∈ cs.takeWhile kind) : kind c = true :=
  List.mem_takeWhile_imp h

/-- A number ends where neither a digit nor a point follows. -/
abbrev EndsNumber (rest : List Char) : Prop := StopsAt isDigitOrPoint rest

/-- Where a number ends no digit follows. -/
theorem EndsNumber.stopsAt_digit {rest : List Char} (ends : EndsNumber rest) :
    StopsAt Char.isDigit rest := by
  intro c hc
  have h := ends c hc
  simp only [isDigitOrPoint, Bool.or_eq_false_iff] at h
  exact h.1

/-- Where a number ends no point follows. -/
theorem EndsNumber.ne_point {c : Char} {rest : List Char} (ends : EndsNumber (c :: rest)) :
    c ≠ '.' := by
  rintro rfl
  exact absurd (ends '.' rfl) (by decide)

/-- A point is no digit, so a run of digits stops at it. -/
theorem stopsAt_digit_point (cs : List Char) : StopsAt Char.isDigit ('.' :: cs) := by
  intro c hc
  obtain rfl : '.' = c := by simpa using hc
  decide

/-! ## Texts in quotes -/

/-- What is read up to a closing quote stands between quotes and denotes the text read. -/
theorem textUntil_sound {quote : Char} {cs text rest : List Char}
    (h : textUntil quote cs = some (text, rest)) :
    ∃ inside, cs = inside ++ quote :: rest ∧ Quoted quote inside text := by
  fun_induction textUntil quote cs generalizing text with
  | case1 => cases h
  | case2 behind =>
    obtain ⟨rfl, rfl⟩ := Prod.mk.inj (Option.some.inj h)
    exact ⟨[], rfl, .nil⟩
  | case3 => cases h
  | case4 e behind differs ih =>
    obtain ⟨⟨inner, _⟩, hread, hpair⟩ := Option.map_eq_some_iff.1 h
    obtain ⟨rfl, rfl⟩ := Prod.mk.inj hpair
    obtain ⟨inside, rfl, quoted⟩ := ih hread
    exact ⟨'\\' :: e :: inside, rfl, .pair quoted⟩
  | case5 c behind differs plain ih =>
    obtain ⟨⟨inner, _⟩, hread, hpair⟩ := Option.map_eq_some_iff.1 h
    obtain ⟨rfl, rfl⟩ := Prod.mk.inj hpair
    obtain ⟨inside, rfl, quoted⟩ := ih hread
    exact ⟨c :: inside, rfl, .char differs plain quoted⟩

/-- What stands between quotes is read up to the closing quote. -/
theorem textUntil_complete {quote : Char} {inside text : List Char} (notEscape : quote ≠ '\\')
    (quoted : Quoted quote inside text) (rest : List Char) :
    textUntil quote (inside ++ quote :: rest) = some (text, rest) := by
  induction quoted with
  | nil => rw [List.nil_append, textUntil.eq_def]; simp only [if_true]
  | char differs plain _ ih =>
    rw [List.cons_append, textUntil.eq_def]
    simp only [differs, plain, if_false, ih, Option.map_some]
  | pair _ ih =>
    rw [List.cons_append, List.cons_append, textUntil.eq_def]
    simp only [notEscape.symm, if_false, if_true, ih, Option.map_some]

/-- A text in quotes that is read is a literal. -/
theorem quotedText_sound {cs rest : List Char} {value : Value}
    (h : quotedText cs = some (value, rest)) : ∃ lit, cs = lit ++ rest ∧ Literal lit value := by
  cases cs with
  | nil => cases h
  | cons quote cs =>
    rw [quotedText] at h
    split at h
    · rename_i mark
      obtain ⟨⟨text, _⟩, hread, hpair⟩ := Option.map_eq_some_iff.1 h
      obtain ⟨rfl, rfl⟩ := Prod.mk.inj hpair
      obtain ⟨inside, rfl, quoted⟩ := textUntil_sound hread
      exact ⟨quote :: inside ++ [quote], by simp, .text mark quoted⟩
    · cases h

/-- A text in quotes is read whole. -/
theorem quotedText_complete {quote : Char} {inside text : List Char}
    (mark : quote = '"' ∨ quote = '\x27') (quoted : Quoted quote inside text) (rest : List Char) :
    quotedText (quote :: inside ++ [quote] ++ rest) = some (.string (String.ofList text), rest) := by
  have notEscape : quote ≠ '\\' := by
    rcases mark with rfl | rfl <;> decide
  have hread := textUntil_complete notEscape quoted rest
  rw [show quote :: inside ++ [quote] ++ rest = quote :: (inside ++ quote :: rest) by simp,
    quotedText, if_pos mark, hread]
  rfl

/-! ## Truth values -/

/-- A truth value that is read is a literal. -/
theorem truthValue_sound {cs rest : List Char} {value : Value}
    (h : truthValue cs = some (value, rest)) : ∃ lit, cs = lit ++ rest ∧ Literal lit value := by
  unfold truthValue at h
  split at h
  · obtain ⟨rfl, rfl⟩ := Prod.mk.inj (Option.some.inj h)
    exact ⟨['t', 'r', 'u', 'e'], rfl, .yes⟩
  · obtain ⟨rfl, rfl⟩ := Prod.mk.inj (Option.some.inj h)
    exact ⟨['f', 'a', 'l', 's', 'e'], rfl, .no⟩
  · cases h

/-! ## Numbers behind a minus sign -/

/-- A run of digits and points that has a value behind a minus sign is a literal there. -/
theorem negativeValue?_sound {run : List Char} {value : Value} (nonempty : run ≠ [])
    (all : ∀ c ∈ run, isDigitOrPoint c = true) (h : negativeValue? run = some value) :
    Literal ('-' :: run) value := by
  have hsplit : run.takeWhile Char.isDigit ++ run.dropWhile Char.isDigit = run :=
    List.takeWhile_append_dropWhile
  unfold negativeValue? at h
  dsimp only at h
  split at h
  · rename_i hdrop
    -- no point: the run is all digits
    have digits : Digits run := by
      refine ⟨nonempty, fun c hc => ?_⟩
      rw [hdrop, List.append_nil] at hsplit
      rw [← hsplit] at hc
      exact of_mem_takeWhile hc
    split at h
    · rename_i range
      obtain rfl := Option.some.inj h
      exact .negativeInt digits range
    · cases h
  · rename_i c fraction hdrop
    split at h
    · rename_i hcond
      obtain rfl := Option.some.inj h
      rw [Bool.and_eq_true, List.all_eq_true] at hcond
      -- the digits end at a character of the run that is none of them, so at a point
      have hpoint : c = '.' := by
        have hstop : Char.isDigit c = false := stopsAt_dropWhile Char.isDigit run c (by rw [hdrop]; rfl)
        have hmem : isDigitOrPoint c = true := all c (by rw [← hsplit, hdrop]; simp)
        simpa [isDigitOrPoint, hstop] using hmem
      subst hpoint
      rw [hdrop] at hsplit
      have digits : Digits (run.takeWhile Char.isDigit ++ fraction) := by
        refine ⟨by simpa using hcond.2, fun d hd => ?_⟩
        rcases List.mem_append.1 hd with hd | hd
        · exact of_mem_takeWhile hd
        · exact hcond.1 d hd
      have := Literal.negativeFloat digits
      rwa [show '-' :: run.takeWhile Char.isDigit ++ '.' :: fraction = '-' :: run by
        rw [List.cons_append, hsplit]] at this
    · cases h

/-- A number behind a minus sign that is read is a literal. -/
theorem negativeNumber_sound {cs rest : List Char} {value : Value}
    (h : negativeNumber cs = .ok (some (value, rest))) :
    ∃ lit, cs = lit ++ rest ∧ Literal lit value := by
  unfold negativeNumber at h
  split at h
  · rename_i behind
    dsimp only at h
    split at h
    · cases h
    · rename_i nonempty
      split at h
      · rename_i read hvalue
        obtain ⟨rfl, rfl⟩ := Prod.mk.inj (Option.some.inj (Except.ok.inj h))
        refine ⟨'-' :: behind.takeWhile isDigitOrPoint, ?_, ?_⟩
        · rw [List.cons_append, List.takeWhile_append_dropWhile]
        · exact negativeValue?_sound (by simpa using nonempty) (fun c hc => of_mem_takeWhile hc) hvalue
      · cases h
  · cases h

/-- A run of digits and points behind a minus sign is read whole, with its value. -/
theorem negativeNumber_complete {run rest : List Char} {value : Value} (nonempty : run ≠ [])
    (all : ∀ c ∈ run, isDigitOrPoint c = true) (hvalue : negativeValue? run = some value)
    (ends : EndsNumber rest) :
    negativeNumber ('-' :: run ++ rest) = .ok (some (value, rest)) := by
  rw [List.cons_append, negativeNumber]
  simp only [takeWhile_run all ends, dropWhile_run all ends, hvalue]
  rw [if_neg (by simpa using nonempty)]

/-- Digits around one point have a value behind a minus sign. -/
theorem negativeValue?_float {whole fraction : List Char} (digits : Digits (whole ++ fraction)) :
    negativeValue? (whole ++ '.' :: fraction) =
      some (.float (Binary64.ofDecimal true (number (whole ++ fraction)) fraction.length)) := by
  have hwhole : ∀ c ∈ whole, c.isDigit = true := fun c hc =>
    digits.2 c (List.mem_append_left _ hc)
  have hall : fraction.all Char.isDigit = true :=
    List.all_eq_true.2 fun c hc => digits.2 c (List.mem_append_right _ hc)
  have hne : (whole ++ fraction).isEmpty = false := by simpa using digits.1
  unfold negativeValue?
  simp only [takeWhile_run hwhole (stopsAt_digit_point fraction),
    dropWhile_run hwhole (stopsAt_digit_point fraction), hall, hne, Bool.not_false, Bool.and_self,
    if_true]

/-- Digits within the range have a value behind a minus sign. -/
theorem negativeValue?_int {digits : List Char} (run : Digits digits)
    (range : number digits ≤ wholeBound) :
    negativeValue? digits = some (.int (Int64.ofInt (-(number digits : Int)))) := by
  have hdrop : digits.dropWhile Char.isDigit = [] := List.dropWhile_eq_nil_iff.2 run.2
  unfold negativeValue?
  simp only [hdrop, range, if_true]

/-! ## Numbers without a minus sign -/

/-- Digits on both sides of a point that are read are a literal. -/
theorem pointedNumber_sound {cs rest : List Char} {value : Value}
    (h : pointedNumber cs = some (value, rest)) : ∃ lit, cs = lit ++ rest ∧ Literal lit value := by
  unfold pointedNumber at h
  dsimp only at h
  split at h
  · rename_i behind hpoint
    split at h
    · cases h
    · rename_i hempty
      obtain ⟨rfl, rfl⟩ := Prod.mk.inj (Option.some.inj h)
      rw [Bool.or_eq_true, not_or, List.isEmpty_iff, List.isEmpty_iff] at hempty
      refine ⟨cs.takeWhile Char.isDigit ++ '.' :: behind.takeWhile Char.isDigit, ?_, ?_⟩
      · rw [List.append_assoc, List.cons_append, List.takeWhile_append_dropWhile, ← hpoint,
          List.takeWhile_append_dropWhile]
      · exact .float ⟨hempty.1, fun c hc => of_mem_takeWhile hc⟩
          ⟨hempty.2, fun c hc => of_mem_takeWhile hc⟩
  · cases h

/-- Digits on both sides of a point are read whole. -/
theorem pointedNumber_complete {whole fraction rest : List Char} (before : Digits whole)
    (behind : Digits fraction) (ends : EndsNumber rest) :
    pointedNumber (whole ++ '.' :: fraction ++ rest) =
      some (.float (Binary64.ofDecimal false (number (whole ++ fraction)) fraction.length), rest) := by
  have hstop := stopsAt_digit_point (fraction ++ rest)
  rw [List.append_assoc, List.cons_append]
  unfold pointedNumber
  simp only [takeWhile_run before.2 hstop, dropWhile_run before.2 hstop,
    takeWhile_run behind.2 ends.stopsAt_digit, dropWhile_run behind.2 ends.stopsAt_digit]
  rw [if_neg (by simp [before.1, behind.1])]

/-- Digits that end without a point are no number with a point. -/
theorem pointedNumber_eq_none {digits rest : List Char} (all : ∀ c ∈ digits, c.isDigit = true)
    (ends : EndsNumber rest) : pointedNumber (digits ++ rest) = none := by
  unfold pointedNumber
  simp only [dropWhile_run all ends.stopsAt_digit]
  split
  · exact absurd rfl ends.ne_point
  · rfl

/-- A whole number without a leading zero that is read is a run of digits within the range. -/
theorem positiveNumber_sound {cs rest : List Char} {value : Value}
    (h : positiveNumber cs = some (value, rest)) :
    ∃ digits, cs = digits ++ rest ∧ Digits digits ∧ digits.head? ≠ some '0' ∧
      number digits < wholeBound ∧ value = .int (Int64.ofInt (number digits)) := by
  cases cs with
  | nil => cases h
  | cons c cs =>
    rw [positiveNumber] at h
    dsimp only at h
    split at h
    · rename_i hfirst
      rw [Bool.and_eq_true] at hfirst
      split at h
      · rename_i range
        obtain ⟨rfl, rfl⟩ := Prod.mk.inj (Option.some.inj h)
        refine ⟨c :: cs.takeWhile Char.isDigit, ?_, ⟨List.cons_ne_nil _ _, ?_⟩, ?_, range, rfl⟩
        · rw [List.cons_append, List.takeWhile_append_dropWhile]
        · intro d hd
          rcases List.mem_cons.1 hd with rfl | hd
          · exact hfirst.1
          · exact of_mem_takeWhile hd
        · simpa using hfirst.2
      · cases h
    · cases h

/-- A whole number without a leading zero is read whole. -/
theorem positiveNumber_complete {digits rest : List Char} (run : Digits digits)
    (leading : digits.head? ≠ some '0') (range : number digits < wholeBound)
    (ends : EndsNumber rest) :
    positiveNumber (digits ++ rest) = some (.int (Int64.ofInt (number digits)), rest) := by
  obtain ⟨nonempty, all⟩ := run
  cases digits with
  | nil => exact absurd rfl nonempty
  | cons c digits =>
    have hc : c.isDigit = true := all c List.mem_cons_self
    have hzero : (c != '0') = true := by simpa using leading
    have hall : ∀ d ∈ digits, d.isDigit = true := fun d hd => all d (List.mem_cons_of_mem _ hd)
    rw [List.cons_append, positiveNumber]
    simp only [hc, hzero, Bool.and_self, if_true, takeWhile_run hall ends.stopsAt_digit,
      dropWhile_run hall ends.stopsAt_digit, range]

/-- A whole number that is read is a literal. -/
theorem wholeNumber_sound {cs rest : List Char} {value : Value}
    (h : wholeNumber cs = some (value, rest)) : ∃ lit, cs = lit ++ rest ∧ Literal lit value := by
  unfold wholeNumber at h
  split at h
  · obtain ⟨rfl, rfl⟩ := Prod.mk.inj (Option.some.inj h)
    exact ⟨['0'], rfl, .zero⟩
  · obtain ⟨digits, rfl, run, leading, range, rfl⟩ := positiveNumber_sound h
    exact ⟨['+'] ++ digits, rfl, .int (.inr rfl) run leading range⟩
  · obtain ⟨digits, rfl, run, leading, range, rfl⟩ := positiveNumber_sound h
    exact ⟨[] ++ digits, rfl, .int (.inl rfl) run leading range⟩

/-! ## All literals -/

/-- What is read as a literal is one, with the answered value. -/
theorem literal_sound {cs rest : List Char} {value : Value}
    (h : literal cs = .ok (some (value, rest))) :
    ∃ lit, cs = lit ++ rest ∧ Literal lit value := by
  unfold literal at h
  split at h
  · rename_i read hread
    obtain rfl : read = (value, rest) := by simpa using h
    rcases Option.or_eq_some_iff.1 hread with hread | ⟨_, hread⟩
    · exact quotedText_sound hread
    · exact truthValue_sound hread
  · split at h
    · cases h
    · rename_i read hread
      obtain rfl : read = (value, rest) := by simpa using h
      exact negativeNumber_sound hread
    · rcases Option.or_eq_some_iff.1 (Except.ok.inj h) with hread | ⟨_, hread⟩
      · exact pointedNumber_sound hread
      · exact wholeNumber_sound hread

/-- In front of a digit or a plus sign only the readers of unsigned numbers are left. -/
theorem literal_unsigned {c : Char} (cs : List Char) (first : c.isDigit = true ∨ c = '+') :
    literal (c :: cs) = .ok ((pointedNumber (c :: cs)).or (wholeNumber (c :: cs))) := by
  have differs : ∀ d : Char, d.isDigit = false → d ≠ '+' → c ≠ d := by
    rintro d hdigit hplus rfl
    rcases first with first | first
    · rw [hdigit] at first
      cases first
    · exact hplus first
  have hquoted : quotedText (c :: cs) = none := by
    have hmark : ¬(c = '"' ∨ c = '\x27') := by
      rintro (h | h)
      · exact differs '"' (by decide) (by decide) h
      · exact differs '\x27' (by decide) (by decide) h
    rw [quotedText, if_neg hmark]
  have htruth : truthValue (c :: cs) = none := by
    unfold truthValue
    split
    · rename_i heq
      exact absurd (List.cons.inj heq).1 (differs 't' (by decide) (by decide))
    · rename_i heq
      exact absurd (List.cons.inj heq).1 (differs 'f' (by decide) (by decide))
    · rfl
  have hnegative : negativeNumber (c :: cs) = .ok none := by
    unfold negativeNumber
    split
    · rename_i heq
      exact absurd (List.cons.inj heq).1 (differs '-' (by decide) (by decide))
    · rfl
  unfold literal
  simp only [hquoted, htruth, Option.or_none, hnegative]

/-- A minus sign with digits behind it is read by the reader of such numbers. -/
theorem literal_negative {run rest : List Char} {value : Value} (nonempty : run ≠ [])
    (all : ∀ c ∈ run, isDigitOrPoint c = true) (hvalue : negativeValue? run = some value)
    (ends : EndsNumber rest) : literal ('-' :: run ++ rest) = .ok (some (value, rest)) := by
  have hread := negativeNumber_complete nonempty all hvalue ends
  have hfront : (quotedText ('-' :: run ++ rest)).or (truthValue ('-' :: run ++ rest)) = none := by
    rw [List.cons_append, quotedText, if_neg (by decide)]
    rfl
  unfold literal
  simp only [hfront, hread]

/-- A literal is read whole, with its value, wherever a number may end. -/
theorem literal_complete {lit rest : List Char} {value : Value} (written : Literal lit value)
    (ends : EndsNumber rest) : literal (lit ++ rest) = .ok (some (value, rest)) := by
  cases written with
  | text mark inside =>
    unfold literal
    simp only [quotedText_complete mark inside rest, Option.some_or]
  | yes => rfl
  | no => rfl
  | @negativeFloat whole fraction digits =>
    have hrun : '-' :: whole ++ '.' :: fraction = '-' :: (whole ++ '.' :: fraction) := rfl
    rw [hrun]
    refine literal_negative (by simp) (fun c hc => ?_) (negativeValue?_float digits) ends
    have hc : c ∈ whole ++ fraction ∨ c = '.' := by
      simp only [List.mem_append, List.mem_cons] at hc ⊢
      grind
    rcases hc with hc | rfl
    · rw [isDigitOrPoint, digits.2 c hc, Bool.true_or]
    · decide
  | negativeInt run range =>
    refine literal_negative run.1 (fun c hc => ?_) (negativeValue?_int run range) ends
    rw [isDigitOrPoint, run.2 c hc, Bool.true_or]
  | @float whole fraction before behind =>
    have hread := pointedNumber_complete before behind ends
    obtain ⟨c, whole, rfl⟩ := List.exists_cons_of_ne_nil before.1
    have hfirst : c.isDigit = true := before.2 c List.mem_cons_self
    have hcons : c :: whole ++ '.' :: fraction ++ rest = c :: (whole ++ '.' :: fraction ++ rest) := rfl
    rw [hcons] at hread ⊢
    rw [literal_unsigned _ (.inl hfirst), hread, Option.some_or]
  | zero =>
    have hdigit : ∀ c ∈ ['0'], c.isDigit = true := fun c hc => by
      obtain rfl := List.mem_singleton.1 hc
      rfl
    have hnone := pointedNumber_eq_none hdigit ends
    rw [List.cons_append, List.nil_append] at hnone ⊢
    rw [literal_unsigned _ (.inl (by decide)), hnone]
    rfl
  | @int sign digits plus run leading range =>
    have hread := positiveNumber_complete run leading range ends
    rcases plus with rfl | rfl
    · have hnone := pointedNumber_eq_none run.2 ends
      obtain ⟨c, digits, rfl⟩ := List.exists_cons_of_ne_nil run.1
      have hfirst : c.isDigit = true := run.2 c List.mem_cons_self
      have hzero : c ≠ '0' := by simpa using leading
      have hplus : c ≠ '+' := by
        rintro rfl
        exact absurd hfirst (by decide)
      rw [List.nil_append, List.cons_append] at *
      rw [literal_unsigned _ (.inl hfirst), hnone, Option.none_or, wholeNumber, hread]
      · exact fun _ h => hzero (List.cons.inj h).1
      · exact fun _ h => hplus (List.cons.inj h).1
    · have hnone : pointedNumber ('+' :: (digits ++ rest)) = none := rfl
      rw [List.append_assoc, List.cons_append, List.nil_append,
        literal_unsigned _ (.inr rfl), hnone, Option.none_or]
      exact congrArg _ hread

end ChainGrammar.Expression
