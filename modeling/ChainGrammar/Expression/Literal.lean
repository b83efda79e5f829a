import ChainGrammar.Value

/-!
# Literals of an expression

Reading one argument at the front of a text.  Texts stand in double or single quotes, truth values are
written out, and numbers are tried in this order: a minus sign with a run of digits and points, digits
on both sides of a point, a whole number without leading zeros.

A reader answers the value and what is left of the text, or nothing where no literal stands in
front.  Only a number behind a minus sign can be wrong in a way that leaves no other reading.
-/

set_option autoImplicit false

namespace ChainGrammar.Expression

/-- What a reader expected where it had to stop. -/
inductive Expectation where
  | methodName
  | argumentList
  | closingParenthesis
  | value
  | endOfText
  deriving DecidableEq, Inhabited

/-- The place where reading came to an end: what was expected and the text that was left. -/
structure Stop where
  expected : Expectation
  rest : List Char
  deriving DecidableEq, Inhabited

/-- The characters between the parts of an expression. -/
def isBlank (c : Char) : Bool :=
  c == ' ' || c == '\t' || c == '\n' || c == '\x0c' || c == '\r'

/-- What is left behind the blanks in front. -/
def skipBlanks (cs : List Char) : List Char := cs.dropWhile isBlank

/-- What the character behind a backslash stands for, the backslash included. -/
def decodePair (c : Char) : List Char :=
  if c = '"' then ['"']
  else if c = '\x27' then ['\x27']
  else if c = '\\' then ['\\']
  else if c = 'n' then ['\n']
  else if c = 't' then ['\t']
  else ['\\', c]

/-- The text up to the closing quote, and what is left behind it. -/
def textUntil (quote : Char) : List Char → Option (List Char × List Char)
  | [] => none
  | c :: rest =>
    if c = quote then some ([], rest)
    else if c = '\\' then
      match rest with
      | [] => none
      | e :: rest => (textUntil quote rest).map fun (text, rest) => (decodePair e ++ text, rest)
    else (textUntil quote rest).map fun (text, rest) => (c :: text, rest)

/-- A text in quotes. -/
def quotedText : List Char → Option (Value × List Char)
  | [] => none
  | quote :: rest =>
    if quote = '"' ∨ quote = '\x27' then
      (textUntil quote rest).map fun (text, rest) => (.string (String.ofList text), rest)
    else none

/-- A truth value. -/
def truthValue : List Char → Option (Value × List Char)
  | 't' :: 'r' :: 'u' :: 'e' :: rest => some (.bool true, rest)
  | 'f' :: 'a' :: 'l' :: 's' :: 'e' :: rest => some (.bool false, rest)
  | _ => none

/-- The number that a list of decimal digits denotes. -/
def number (digits : List Char) : Nat := Nat.ofDigitChars 10 digits 0

/-- Whole numbers lie from minus this bound on up to below it. -/
def wholeBound : Nat := Nat.pow 2 63

/-- Is it part of a number behind a minus sign? -/
def isDigitOrPoint (c : Char) : Bool := c.isDigit || c == '.'

/-- The value of a minus sign with a run of digits and points behind it: with one point and a digit a
floating-point number, without a point a whole number within its range, and nothing otherwise. -/
def negativeValue? (run : List Char) : Option Value :=
  let whole := run.takeWhile Char.isDigit
  match run.dropWhile Char.isDigit with
  | [] => if number run ≤ wholeBound then some (.int (Int64.ofInt (-(number run : Int)))) else none
  | _ :: fraction =>
    if fraction.all Char.isDigit && !(whole ++ fraction).isEmpty then
      some (.float (Binary64.ofDecimal true (number (whole ++ fraction)) fraction.length))
    else none

/-- A number behind a minus sign. -/
def negativeNumber : List Char → Except Stop (Option (Value × List Char))
  | '-' :: cs =>
    let run := cs.takeWhile isDigitOrPoint
    let rest := cs.dropWhile isDigitOrPoint
    if run.isEmpty then .ok none
    else
      match negativeValue? run with
      | some value => .ok (some (value, rest))
      | none => .error ⟨.value, rest⟩
  | _ => .ok none

/-- Digits on both sides of a point. -/
def pointedNumber (cs : List Char) : Option (Value × List Char) :=
  let whole := cs.takeWhile Char.isDigit
  match cs.dropWhile Char.isDigit with
  | '.' :: cs =>
    let fraction := cs.takeWhile Char.isDigit
    if whole.isEmpty || fraction.isEmpty then none
    else
      some (.float (Binary64.ofDecimal false (number (whole ++ fraction)) fraction.length),
        cs.dropWhile Char.isDigit)
  | _ => none

/-- A whole number that does not begin with a zero and lies within its range. -/
def positiveNumber : List Char → Option (Value × List Char)
  | [] => none
  | c :: cs =>
    if c.isDigit && c != '0' then
      let digits := c :: cs.takeWhile Char.isDigit
      if number digits < wholeBound then
        some (.int (Int64.ofInt (number digits)), cs.dropWhile Char.isDigit)
      else none
    else none

/-- Zero, or a whole number with an optional plus sign. -/
def wholeNumber : List Char → Option (Value × List Char)
  | '0' :: rest => some (.int 0, rest)
  | '+' :: cs => positiveNumber cs
  | cs => positiveNumber cs

/-- The literal at the front of a text. -/
def literal (cs : List Char) : Except Stop (Option (Value × List Char)) :=
  match (quotedText cs).or (truthValue cs) with
  | some read => .ok (some read)
  | none =>
    match negativeNumber cs with
    | .error stop => .error stop
    | .ok (some read) => .ok (some read)
    | .ok none => .ok ((pointedNumber cs).or (wholeNumber cs))

/-! ### Every literal takes at least one character -/

theorem length_dropWhile_le (p : Char → Bool) (cs : List Char) :
    (cs.dropWhile p).length ≤ cs.length :=
  (List.dropWhile_sublist p).length_le

theorem length_lt_of_textUntil {quote : Char} {cs text rest : List Char}
    (h : textUntil quote cs = some (text, rest)) : rest.length < cs.length := by
  fun_induction textUntil quote cs generalizing text rest with
  | case1 => cases h
  | case2 =>
    obtain ⟨_, rfl⟩ := Prod.mk.inj (Option.some.inj h)
    exact Nat.lt_succ_self _
  | case3 => cases h
  | case4 =>
    rename_i ih
    obtain ⟨⟨_, _⟩, h₁, h₂⟩ := Option.map_eq_some_iff.1 h
    obtain ⟨_, rfl⟩ := Prod.mk.inj h₂
    have := ih h₁
    simp only [List.length_cons]
    omega
  | case5 =>
    rename_i ih
    obtain ⟨⟨_, _⟩, h₁, h₂⟩ := Option.map_eq_some_iff.1 h
    obtain ⟨_, rfl⟩ := Prod.mk.inj h₂
    have := ih h₁
    simp only [List.length_cons]
    omega

theorem length_lt_of_quotedText {cs rest : List Char} {value : Value}
    (h : quotedText cs = some (value, rest)) : rest.length < cs.length := by
  cases cs with
  | nil => cases h
  | cons quote cs =>
    rw [quotedText] at h
    split at h
    · obtain ⟨⟨_, _⟩, h₁, h₂⟩ := Option.map_eq_some_iff.1 h
      obtain ⟨_, rfl⟩ := Prod.mk.inj h₂
      exact Nat.lt_succ_of_lt (length_lt_of_textUntil h₁)
    · cases h

theorem length_lt_of_truthValue {cs rest : List Char} {value : Value}
    (h : truthValue cs = some (value, rest)) : rest.length < cs.length := by
  unfold truthValue at h
  split at h
  · obtain ⟨_, rfl⟩ := Prod.mk.inj (Option.some.inj h)
    simp only [List.length_cons]
    omega
  · obtain ⟨_, rfl⟩ := Prod.mk.inj (Option.some.inj h)
    simp only [List.length_cons]
    omega
  · cases h

theorem length_lt_of_negativeNumber {cs rest : List Char} {value : Value}
    (h : negativeNumber cs = .ok (some (value, rest))) : rest.length < cs.length := by
  unfold negativeNumber at h
  split at h
  · rename_i cs
    dsimp only at h
    split at h
    · cases h
    · split at h
      · obtain ⟨_, rfl⟩ := Prod.mk.inj (Option.some.inj (Except.ok.inj h))
        exact Nat.lt_succ_of_le (length_dropWhile_le isDigitOrPoint cs)
      · cases h
  · cases h

theorem length_lt_of_pointedNumber {cs rest : List Char} {value : Value}
    (h : pointedNumber cs = some (value, rest)) : rest.length < cs.length := by
  unfold pointedNumber at h
  dsimp only at h
  split at h
  · rename_i behind heq
    have h₁ := length_dropWhile_le Char.isDigit cs
    have h₂ := length_dropWhile_le Char.isDigit behind
    rw [heq, List.length_cons] at h₁
    split at h
    · cases h
    · obtain ⟨_, rfl⟩ := Prod.mk.inj (Option.some.inj h)
      omega
  · cases h

theorem length_lt_of_positiveNumber {cs rest : List Char} {value : Value}
    (h : positiveNumber cs = some (value, rest)) : rest.length < cs.length := by
  cases cs with
  | nil => cases h
  | cons c cs =>
    rw [positiveNumber] at h
    dsimp only at h
    split at h
    · split at h
      · obtain ⟨_, rfl⟩ := Prod.mk.inj (Option.some.inj h)
        exact Nat.lt_succ_of_le (length_dropWhile_le Char.isDigit cs)
      · cases h
    · cases h

theorem length_lt_of_wholeNumber {cs rest : List Char} {value : Value}
    (h : wholeNumber cs = some (value, rest)) : rest.length < cs.length := by
  unfold wholeNumber at h
  split at h
  · obtain ⟨_, rfl⟩ := Prod.mk.inj (Option.some.inj h)
    exact Nat.lt_succ_self _
  · exact Nat.lt_succ_of_lt (length_lt_of_positiveNumber h)
  · exact length_lt_of_positiveNumber h

theorem length_lt_of_literal {cs rest : List Char} {value : Value}
    (h : literal cs = .ok (some (value, rest))) : rest.length < cs.length := by
  unfold literal at h
  split at h
  · rename_i read heq
    obtain rfl : read = (value, rest) := by simpa using h
    rcases Option.or_eq_some_iff.1 heq with h | ⟨_, h⟩
    · exact length_lt_of_quotedText h
    · exact length_lt_of_truthValue h
  · split at h
    · cases h
    · rename_i read heq
      obtain rfl : read = (value, rest) := by simpa using h
      exact length_lt_of_negativeNumber heq
    · have heq := Except.ok.inj h
      rcases Option.or_eq_some_iff.1 heq with h | ⟨_, h⟩
      · exact length_lt_of_pointedNumber h
      · exact length_lt_of_wholeNumber h

end ChainGrammar.Expression
