import Predictive.Text.Digits
import Predictive.Text.Quoted

/-!
# Integers written by people

An integer as it is typed at a prompt, given as an option or set in the
environment: blanks around it are ignored, a sign may stand directly
before it, single low lines may stand between digits, and the decimal
digits of every script count. The information separators U+001C to
U+001F are no blanks here. A numeral of more than 4300 digits is
refused, whatever stands behind it.
-/

namespace Predictive

namespace Text

/-! ## Digits -/

/-- The zero of each set of ten decimal digits; the other nine follow
it. -/
def zeroDigits : List Nat :=
  [0x30, 0x660, 0x6F0, 0x7C0, 0x966, 0x9E6, 0xA66, 0xAE6, 0xB66, 0xBE6, 0xC66, 0xCE6, 0xD66,
   0xDE6, 0xE50, 0xED0, 0xF20, 0x1040, 0x1090, 0x17E0, 0x1810, 0x1946, 0x19D0, 0x1A80, 0x1A90,
   0x1B50, 0x1BB0, 0x1C40, 0x1C50, 0xA620, 0xA8D0, 0xA900, 0xA9D0, 0xA9F0, 0xAA50, 0xABF0,
   0xFF10, 0x104A0, 0x10D30, 0x11066, 0x110F0, 0x11136, 0x111D0, 0x112F0, 0x11450, 0x114D0,
   0x11650, 0x116C0, 0x11730, 0x118E0, 0x11950, 0x11C50, 0x11D50, 0x11DA0, 0x16A60, 0x16AC0,
   0x16B50, 0x1D7CE, 0x1D7D8, 0x1D7E2, 0x1D7EC, 0x1D7F6, 0x1E140, 0x1E2F0, 0x1E950, 0x1FBF0]

/-- The value of a decimal digit of any script. -/
def digitValue? (c : CodePoint) : Option Nat :=
  (zeroDigits.find? fun first => first ≤ c.toNat && c.toNat < first + 10).map (c.toNat - ·)

/-! ## Reading -/

inductive NumeralError where
  | notNumeral (t : Text)
  | tooLong (digits : Nat)
deriving DecidableEq

/-- The wording of a refusal. A long text is shown by the first two
hundred characters of its quoted form. -/
def NumeralError.message : NumeralError → Text
  | .notNumeral t => "invalid literal for int() with base 10: " ++ (quoted t).take 200
  | .tooLong digits =>
    "Exceeds the limit (4300 digits) for integer string conversion: value has " ++ ofNat digits ++
      " digits; use sys.set_int_max_str_digits() to increase the limit"

/-- The blanks that may stand around a numeral. -/
def isNumeralBlank (c : CodePoint) : Bool :=
  isBlank c && !(0x1C ≤ c.toNat && c.toNat ≤ 0x1F)

/-- A code point that numerals are made of: a digit or a low line. -/
def isNumeralPart (c : CodePoint) : Bool := c == '_' || (digitValue? c).isSome

/-- The digits of a run of such, single low lines between them left out;
`none` when no digit is there or a low line stands elsewhere. -/
def digits? : Text → Option (List Nat)
  | [] => none
  | [c] => (digitValue? c).map ([·])
  | c :: .char '_' :: rest => do return (← digitValue? c) :: (← digits? rest)
  | c :: rest => do return (← digitValue? c) :: (← digits? rest)

/-- The integer that a text spells. The run of digits at its front is
counted before anything behind it is looked at. -/
def toInt (t : Text) : Except NumeralError Int :=
  let (isNegative, unsigned) := match t.dropWhile isNumeralBlank with
    | .char '-' :: rest => (true, rest)
    | .char '+' :: rest => (false, rest)
    | unsigned => (false, unsigned)
  match digits? (unsigned.takeWhile isNumeralPart) with
  | none => .error (.notNumeral t)
  | some ds =>
    if 4300 < ds.length then .error (.tooLong ds.length)
    else if !((unsigned.dropWhile isNumeralPart).dropWhile isNumeralBlank).isEmpty then
      .error (.notNumeral t)
    else .ok (if isNegative then -(ofDigits 10 ds : Int) else ofDigits 10 ds)

end Text

end Predictive
