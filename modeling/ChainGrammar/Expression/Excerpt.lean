/-!
# Showing a place in a text

A place in a text is shown by the text with a caret below it.  A text of one line is shown whole,
with as many blanks in front of the caret as there are bytes before the place.  Of a longer text only
the line of the place is shown, with its number in a gutter and with the column in the heading.

The line of a place is the line of the byte that stands there, or of the last byte at the end of the
text; a newline belongs to the line that it ends.  The column counts characters, and bytes where the
character at the place takes more than one; the end of the text is one further.
-/

set_option autoImplicit false

namespace ChainGrammar.Expression

/-- The number of bytes of a text. -/
def byteCount : List Char → Nat
  | [] => 0
  | c :: cs => c.utf8Size + byteCount cs

/-- A run of blanks. -/
def blanks (n : Nat) : List Char := List.replicate n ' '

/-- The part of a text behind its last newline. -/
def lastLine (cs : List Char) : List Char := (cs.reverse.takeWhile fun c => c != '\n').reverse

/-- The line and the column of a place, both from one, given the text before it and from it on. -/
def lineAndColumn (before rest : List Char) : Nat × Nat :=
  match rest with
  | c :: _ =>
    let line := lastLine before
    (before.count '\n' + 1, (if c.utf8Size = 1 then line.length else byteCount line) + 1)
  | [] => (before.dropLast.count '\n' + 1, (lastLine before.dropLast).length + 2)

/-- The line of the given number, counted from one. -/
def lineAt (text : List Char) (number : Nat) : List Char :=
  ((text.splitOn '\n')[number - 1]?).getD []

/-- A text of one line with a caret. -/
def oneLineExcerpt (before rest : List Char) : List Char :=
  before ++ rest ++ '\n' :: blanks (byteCount before) ++ ['^', '\n']

/-- The line of a place in a longer text with a caret. -/
def lineExcerpt (before rest : List Char) : List Char :=
  let (line, column) := lineAndColumn before rest
  let number := Nat.toDigits 10 line
  let gutter := blanks number.length ++ [' ', '|']
  "parse error at line ".toList ++ number ++ ", column ".toList ++ Nat.toDigits 10 column ++
    '\n' :: gutter ++ '\n' :: number ++ " | ".toList ++ lineAt (before ++ rest) line ++
    '\n' :: gutter ++ ' ' :: blanks (column - 1) ++ ['^', '\n']

/-- A place in a text, shown with a caret. -/
def excerpt (before rest : List Char) : List Char :=
  if '\n' ∈ before ++ rest then lineExcerpt before rest else oneLineExcerpt before rest

end ChainGrammar.Expression
