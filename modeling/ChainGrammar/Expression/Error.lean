import ChainGrammar.Expression.Excerpt
import ChainGrammar.Expression.Reader

/-!
# Expressions and their errors

`Expression.read` reads an expression given as a string.  A text that is no expression is answered with
the number of complete calls in front and with the place where reading stopped.
-/

set_option autoImplicit false

namespace ChainGrammar

/-- Why a text is no chain expression. -/
structure ExpressionError where
  /-- The number of complete calls at the front of the text. -/
  call : Nat
  /-- The text before the place where reading stopped. -/
  before : List Char
  stop : Expression.Stop
  deriving DecidableEq, Inhabited

namespace Expression

/-- How an expectation is put into words. -/
def Expectation.text : Expectation → String
  | .methodName => "expected method name"
  | .argumentList => "expected argument list"
  | .closingParenthesis => "expected `)`, argument list"
  | .value => "expected value, argument list"
  | .endOfText => ""

/-- The part of a text that comes before a given end of it. -/
def textBefore (text rest : List Char) : List Char := text.take (text.length - rest.length)

/-- The calls of an expression. -/
def read (input : String) : Except ExpressionError (List Call) :=
  let text := input.toList
  match readChars text with
  | .ok calls => .ok calls
  | .error (_, stop) => .error ⟨leadingCalls text, textBefore text stop.rest, stop⟩

end Expression

/-- The wording of a fault: the number of the call, then the place with what was expected there. -/
def ExpressionError.message (error : ExpressionError) : String :=
  "parse error in call " ++ toString error.call ++ ": " ++
    String.ofList (Expression.excerpt error.before error.stop.rest) ++ error.stop.expected.text

/-- The number of bytes before the place where reading stopped. -/
def ExpressionError.offset (error : ExpressionError) : Nat := Expression.byteCount error.before

end ChainGrammar
