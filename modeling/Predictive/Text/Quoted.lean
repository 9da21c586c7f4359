import Predictive.Text.Basic
import Predictive.Text.Printable

/-!
# Quoted texts

How a message shows a text that it did not write itself. The quotation
mark is the apostrophe, or the double quote for a text that holds an
apostrophe and no double quote. Inside, a backslash and the chosen mark
are escaped by a backslash, tab, line feed and carriage return by their
letters, and any other unprintable code point by its number in the
shortest of three fixed widths of hexadecimal digits. So a quoted text
is one line of printable characters.
-/

namespace Predictive

namespace Text

/-- The code point `n` in hexadecimal digits, behind the letter that
tells how many there are. -/
def escapedCode (n : Nat) : Text :=
  if n < 0x100 then "\\x" ++ zeroFill 2 (digits 16 n)
  else if n < 0x10000 then "\\u" ++ zeroFill 4 (digits 16 n)
  else "\\U" ++ zeroFill 8 (digits 16 n)

/-- One code point inside quotation marks `mark`. -/
def escaped (mark c : CodePoint) : Text :=
  if c = '\\' || c = mark then ['\\', c]
  else if c = '\t' then "\\t"
  else if c = '\n' then "\\n"
  else if c = '\r' then "\\r"
  else if isPrintable c then [c]
  else escapedCode c.toNat

def quotationMark (t : Text) : CodePoint :=
  if t.contains '\x27' && !t.contains '"' then '"' else '\x27'

def quoted (t : Text) : Text :=
  let mark := quotationMark t
  mark :: t.flatMap (escaped mark) ++ [mark]

end Text

end Predictive
