import ChainGrammar.Text.GraphemeExtend
import ChainGrammar.Text.Unprintable

/-!
# Quoted text

A quoted text stands between double quotes.  A double quote and a backslash inside it get a
backslash in front; the null character, tab, newline and carriage return have two-character forms;
every other character that has no visible form, or that would attach to the one before it, is
written by its code point in hexadecimal.  All other characters are written as themselves.
-/

set_option autoImplicit false

namespace ChainGrammar.Text

/-- The code point of a character between braces, in lower-case hexadecimal without padding. -/
def codePointEscape (c : Char) : List Char :=
  '\\' :: 'u' :: '\x7b' :: Nat.toDigits 16 c.toNat ++ ['\x7d']

/-- How one character is written inside quotes. -/
def escape (c : Char) : List Char :=
  if c = '\x00' then ['\\', '0']
  else if c = '\t' then ['\\', 't']
  else if c = '\n' then ['\\', 'n']
  else if c = '\r' then ['\\', 'r']
  else if c = '"' ∨ c = '\\' then ['\\', c]
  else if isUnprintable c ∨ isGraphemeExtend c then codePointEscape c
  else [c]

/-- A text between double quotes. -/
def quotedChars (text : List Char) : List Char := '"' :: text.flatMap escape ++ ['"']

/-- A text between double quotes. -/
def quote (text : String) : String := String.ofList (quotedChars text.toList)

end ChainGrammar.Text
