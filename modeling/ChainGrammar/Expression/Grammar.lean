import ChainGrammar.Call
import ChainGrammar.Expression.Reader

/-!
# The grammar of expressions

Which texts are chain expressions and which calls they denote, said by rules and not by a reader:

    chain     ::=  blanks [ "." ] call { blanks "." call } blanks
    call      ::=  blanks name blanks "(" [ argument { blanks "," argument } ] blanks ")"
    argument  ::=  blanks literal
-/

set_option autoImplicit false

namespace ChainGrammar.Expression

/-- A run of blanks. -/
def Blanks (cs : List Char) : Prop := ∀ c ∈ cs, isBlank c = true

/-- A nonempty run of decimal digits. -/
def Digits (cs : List Char) : Prop := cs ≠ [] ∧ ∀ c ∈ cs, c.isDigit = true

/-- A method name. -/
inductive Name : List Char → Prop where
  | intro {c : Char} {cs : List Char} (start : isNameStart c = true)
      (parts : ∀ d ∈ cs, isNamePart d = true) : Name (c :: cs)

/-- What stands between quotes, with the text that it denotes. -/
inductive Quoted (quote : Char) : List Char → List Char → Prop where
  | nil : Quoted quote [] []
  | char {c : Char} {cs text : List Char} (inside : c ≠ quote) (plain : c ≠ '\\')
      (rest : Quoted quote cs text) : Quoted quote (c :: cs) (c :: text)
  | pair {c : Char} {cs text : List Char} (rest : Quoted quote cs text) :
      Quoted quote ('\\' :: c :: cs) (decodePair c ++ text)

/-- A literal with its value. -/
inductive Literal : List Char → Value → Prop where
  | text {quote : Char} {cs text : List Char} (mark : quote = '"' ∨ quote = '\x27')
      (inside : Quoted quote cs text) :
      Literal (quote :: cs ++ [quote]) (.string (String.ofList text))
  | yes : Literal ['t', 'r', 'u', 'e'] (.bool true)
  | no : Literal ['f', 'a', 'l', 's', 'e'] (.bool false)
  /-- A minus sign and digits around exactly one point, at least one digit in all. -/
  | negativeFloat {whole fraction : List Char} (digits : Digits (whole ++ fraction)) :
      Literal ('-' :: whole ++ '.' :: fraction)
        (.float (Binary64.ofDecimal true (number (whole ++ fraction)) fraction.length))
  | negativeInt {digits : List Char} (run : Digits digits) (range : number digits ≤ wholeBound) :
      Literal ('-' :: digits) (.int (Int64.ofInt (-(number digits : Int))))
  /-- Digits on both sides of a point. -/
  | float {whole fraction : List Char} (before : Digits whole) (behind : Digits fraction) :
      Literal (whole ++ '.' :: fraction)
        (.float (Binary64.ofDecimal false (number (whole ++ fraction)) fraction.length))
  | zero : Literal ['0'] (.int 0)
  /-- A whole number without leading zeros, with or without a plus sign. -/
  | int {sign digits : List Char} (plus : sign = [] ∨ sign = ['+']) (run : Digits digits)
      (leading : digits.head? ≠ some '0') (range : number digits < wholeBound) :
      Literal (sign ++ digits) (.int (Int64.ofInt (number digits)))

/-- Arguments, each with a comma in front, with their values. -/
inductive Others : List Char → List Value → Prop where
  | nil : Others [] []
  | cons {before behind cs rest : List Char} {value : Value} {values : List Value}
      (blanks : Blanks before) (more : Blanks behind) (literal : Literal cs value)
      (others : Others rest values) :
      Others (before ++ ',' :: behind ++ cs ++ rest) (value :: values)

/-- What stands between parentheses, up to the last blanks, with the values. -/
inductive Arguments : List Char → List Value → Prop where
  | nil : Arguments [] []
  | cons {before cs rest : List Char} {value : Value} {values : List Value}
      (blanks : Blanks before) (literal : Literal cs value) (others : Others rest values) :
      Arguments (before ++ cs ++ rest) (value :: values)

/-- A call with what it denotes. -/
inductive Written : List Char → Call → Prop where
  | intro {before name between inside behind : List Char} {values : List Value}
      (first : Blanks before) (named : Name name) (second : Blanks between)
      (arguments : Arguments inside values) (third : Blanks behind) :
      Written (before ++ name ++ between ++ '(' :: inside ++ behind ++ [')'])
        ⟨String.ofList name, values⟩

/-- Calls with blanks and dots between them. -/
inductive Joined : List Char → List Call → Prop where
  | single {cs : List Char} {call : Call} (written : Written cs call) : Joined cs [call]
  | cons {cs between rest : List Char} {call : Call} {calls : List Call}
      (written : Written cs call) (blanks : Blanks between) (joined : Joined rest calls) :
      Joined (cs ++ between ++ '.' :: rest) (call :: calls)

/-- What may stand in front of the first call. -/
inductive Opening : List Char → Prop where
  | blanks {cs : List Char} (blanks : Blanks cs) : Opening cs
  | dot {cs : List Char} (blanks : Blanks cs) : Opening (cs ++ ['.'])

/-- A chain expression with the calls that it denotes. -/
inductive Denotes : List Char → List Call → Prop where
  | intro {opening joined behind : List Char} {calls : List Call} (front : Opening opening)
      (written : Joined joined calls) (blanks : Blanks behind) :
      Denotes (opening ++ joined ++ behind) calls

end ChainGrammar.Expression
