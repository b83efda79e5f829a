import ChainGrammar.Call
import ChainGrammar.Expression.Literal

/-!
# Reading a chain expression

An expression is a chain of calls with dots between them, such as `select("order").where("id")`; a
dot may also stand in front, and blanks may stand around every part.  An argument that cannot be read
ends the argument list before it, so a fault there is met where the closing parenthesis is missing.
-/

set_option autoImplicit false

namespace ChainGrammar.Expression

/-- May a method name begin with the character? -/
def isNameStart (c : Char) : Bool := c.isAlpha || c == '_' || c == '$'

/-- May the character stand inside a method name? -/
def isNamePart (c : Char) : Bool := isNameStart c || c.isDigit

/-- A method name. -/
def methodName : List Char → Option (List Char × List Char)
  | [] => none
  | c :: rest =>
    if isNameStart c then some (c :: rest.takeWhile isNamePart, rest.dropWhile isNamePart) else none

/-- An argument behind blanks. -/
def argument (cs : List Char) : Except Stop (Option (Value × List Char)) := literal (skipBlanks cs)

theorem length_lt_of_argument {cs rest : List Char} {value : Value}
    (h : argument cs = .ok (some (value, rest))) : rest.length < cs.length := by
  have := length_lt_of_literal h
  have := length_dropWhile_le isBlank cs
  unfold skipBlanks at *
  omega

/-- The arguments behind a comma each, and what is left where no further one follows. -/
def moreArguments (cs : List Char) : Except Stop (List Value × List Char) :=
  match hc : skipBlanks cs with
  | ',' :: behind =>
    match hr : argument behind with
    | .error stop => .error stop
    | .ok none => .ok ([], cs)
    | .ok (some (value, rest)) =>
      have : rest.length < cs.length := by
        have h₁ := length_lt_of_argument hr
        have h₂ := length_dropWhile_le isBlank cs
        rw [show cs.dropWhile isBlank = ',' :: behind from hc, List.length_cons] at h₂
        omega
      match moreArguments rest with
      | .error stop => .error stop
      | .ok (values, rest) => .ok (value :: values, rest)
  | _ => .ok ([], cs)
termination_by cs.length

/-- The arguments between the parentheses, and what is left behind them. -/
def arguments (cs : List Char) : Except Stop (List Value × List Char) :=
  match argument cs with
  | .error stop => .error stop
  | .ok none => .ok ([], cs)
  | .ok (some (value, rest)) =>
    match moreArguments rest with
    | .error stop => .error stop
    | .ok (values, rest) => .ok (value :: values, rest)

/-- A call behind blanks. -/
def call (cs : List Char) : Except Stop (Call × List Char) :=
  match methodName (skipBlanks cs) with
  | none => .error ⟨.methodName, skipBlanks cs⟩
  | some (name, rest) =>
    match skipBlanks rest with
    | '(' :: inside =>
      match arguments inside with
      | .error stop => .error stop
      | .ok (values, rest) =>
        match skipBlanks rest with
        | ')' :: behind => .ok (⟨String.ofList name, values⟩, behind)
        | rest => .error ⟨.closingParenthesis, rest⟩
    | rest => .error ⟨.argumentList, rest⟩

/-! ### Every call takes at least one character -/

theorem length_le_of_moreArguments {cs rest : List Char} {values : List Value}
    (h : moreArguments cs = .ok (values, rest)) : rest.length ≤ cs.length := by
  fun_induction moreArguments cs generalizing values rest with
  | case1 => cases h
  | case2 =>
    obtain ⟨_, rfl⟩ := Prod.mk.inj (Except.ok.inj h)
    exact Nat.le_refl _
  | case3 => cases h
  | case4 =>
    rename_i shorter _ _ hm ih
    obtain ⟨_, rfl⟩ := Prod.mk.inj (Except.ok.inj h)
    exact Nat.le_trans (ih hm) (Nat.le_of_lt shorter)
  | case5 =>
    obtain ⟨_, rfl⟩ := Prod.mk.inj (Except.ok.inj h)
    exact Nat.le_refl _

theorem length_le_of_arguments {cs rest : List Char} {values : List Value}
    (h : arguments cs = .ok (values, rest)) : rest.length ≤ cs.length := by
  unfold arguments at h
  split at h
  · cases h
  · obtain ⟨_, rfl⟩ := Prod.mk.inj (Except.ok.inj h)
    exact Nat.le_refl _
  · rename_i value behind hr
    split at h
    · cases h
    · rename_i hm
      obtain ⟨_, rfl⟩ := Prod.mk.inj (Except.ok.inj h)
      exact Nat.le_trans (length_le_of_moreArguments hm) (Nat.le_of_lt (length_lt_of_argument hr))

theorem length_lt_of_methodName {cs name rest : List Char}
    (h : methodName cs = some (name, rest)) : rest.length < cs.length := by
  cases cs with
  | nil => cases h
  | cons c cs =>
    rw [methodName] at h
    split at h
    · obtain ⟨_, rfl⟩ := Prod.mk.inj (Option.some.inj h)
      exact Nat.lt_succ_of_le (length_dropWhile_le isNamePart cs)
    · cases h

theorem length_lt_of_call {cs rest : List Char} {read : Call} (h : call cs = .ok (read, rest)) :
    rest.length < cs.length := by
  unfold call at h
  split at h
  · cases h
  · rename_i name afterName hn
    have h₁ := length_lt_of_methodName hn
    have h₂ := length_dropWhile_le isBlank cs
    have h₃ := length_dropWhile_le isBlank afterName
    split at h
    · rename_i inside hi
      rw [show afterName.dropWhile isBlank = '(' :: inside from hi, List.length_cons] at h₃
      split at h
      · cases h
      · rename_i values afterArguments ha
        have h₄ := length_le_of_arguments ha
        have h₅ := length_dropWhile_le isBlank afterArguments
        split at h
        · rename_i behind hb
          rw [show afterArguments.dropWhile isBlank = ')' :: behind from hb, List.length_cons] at h₅
          obtain ⟨_, rfl⟩ := Prod.mk.inj (Except.ok.inj h)
          unfold skipBlanks at h₁
          omega
        · cases h
    · cases h

/-- A chain of calls with dots between them; a stop is told with the number of calls before it. -/
def calls (cs : List Char) : Except (Nat × Stop) (List Call × List Char) :=
  match hr : call cs with
  | .error stop => .error (0, stop)
  | .ok (first, rest) =>
    match hd : skipBlanks rest with
    | '.' :: behind =>
      have : behind.length < cs.length := by
        have h₁ := length_lt_of_call hr
        have h₂ := length_dropWhile_le isBlank rest
        rw [show rest.dropWhile isBlank = '.' :: behind from hd, List.length_cons] at h₂
        omega
      match calls behind with
      | .error (before, stop) => .error (before + 1, stop)
      | .ok (others, rest) => .ok (first :: others, rest)
    | rest => .ok ([first], rest)
termination_by cs.length

/-- What is left behind the blanks and the dot in front of an expression. -/
def skipLeadingDot (cs : List Char) : List Char :=
  match skipBlanks cs with
  | '.' :: rest => rest
  | rest => rest

/-- The calls of an expression, or the place where reading stops and the number of calls before it. -/
def readChars (cs : List Char) : Except (Nat × Stop) (List Call) :=
  match calls (skipLeadingDot cs) with
  | .error stop => .error stop
  | .ok (read, []) => .ok read
  | .ok (read, rest) => .error (read.length, ⟨.endOfText, rest⟩)

/-- How many calls can be read in a row. -/
def countCalls (cs : List Char) : Nat :=
  match hr : call cs with
  | .error _ => 0
  | .ok (_, rest) =>
    match hd : skipBlanks rest with
    | '.' :: behind =>
      have : behind.length < cs.length := by
        have h₁ := length_lt_of_call hr
        have h₂ := length_dropWhile_le isBlank rest
        rw [show rest.dropWhile isBlank = '.' :: behind from hd, List.length_cons] at h₂
        omega
      countCalls behind + 1
    | _ => 1
termination_by cs.length

/-- How many complete calls stand at the front of an expression. -/
def leadingCalls (cs : List Char) : Nat := countCalls (skipLeadingDot cs)

end ChainGrammar.Expression
