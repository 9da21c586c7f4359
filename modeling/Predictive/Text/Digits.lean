import Predictive.Text.Basic

/-!
# Letters and digits

The letters and the decimal and hexadecimal digits of ASCII, and the
number that a list of digit values stands for.
-/

namespace Predictive

namespace Text

def isLetter (c : CodePoint) : Bool :=
  (0x61 ≤ c.toNat && c.toNat ≤ 0x7A) || (0x41 ≤ c.toNat && c.toNat ≤ 0x5A)

def isDigit (c : CodePoint) : Bool := 0x30 ≤ c.toNat && c.toNat ≤ 0x39

def hexValue? (c : CodePoint) : Option Nat :=
  if isDigit c then some (c.toNat - 0x30)
  else if 0x61 ≤ c.toNat && c.toNat ≤ 0x66 then some (c.toNat - 0x57)
  else if 0x41 ≤ c.toNat && c.toNat ≤ 0x46 then some (c.toNat - 0x37)
  else none

/-- The number that digits to a base stand for, highest first. -/
def ofDigits (base : Nat) (ds : List Nat) : Nat := ds.foldl (fun n d => base * n + d) 0

/-- The number that decimal digits of ASCII spell. -/
def decimalValue (t : Text) : Nat := ofDigits 10 (t.map (·.toNat - 0x30))

end Text

end Predictive
