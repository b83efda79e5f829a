import ChainGrammar.Value

/-!
# Calls and transcripts

A call is a method name with its arguments; a transcript is the list of the calls of a chain.
-/

set_option autoImplicit false

namespace ChainGrammar

/-- A method call. -/
structure Call where
  method : String
  args : List Value
  deriving DecidableEq, Inhabited

namespace Call

/-- The text of a call. -/
def chars (call : Call) : List Char :=
  call.method.toList ++ '(' :: List.intercalate [',', ' '] (call.args.map Value.chars) ++ [')']

/-- The text of a call. -/
def text (call : Call) : String := String.ofList call.chars

end Call

/-- The calls of a chain in order. -/
structure Transcript where
  calls : List Call := []
  deriving DecidableEq, Inhabited

namespace Transcript

/-- The names of the called methods. -/
def methods (transcript : Transcript) : List String := transcript.calls.map Call.method

/-- The transcript with one more call. -/
def record (transcript : Transcript) (call : Call) : Transcript := ⟨transcript.calls ++ [call]⟩

/-- The calls with dots between them. -/
def text (transcript : Transcript) : String :=
  String.ofList (List.intercalate ['.'] (transcript.calls.map Call.chars))

end Transcript

end ChainGrammar
