/-!
# Double precision

The finite magnitudes of double precision: whole numbers of at most 53
bits times powers of two, none of these less than `2 ^ -1074` or more
than `2 ^ 971`. A decimal fraction is read as the nearest of them, and
halfway between two as the one with the even mantissa; what would need a
greater power is beyond double precision.
-/

namespace Predictive

/-- A finite magnitude of double precision, the mantissa times two to
the power of the exponent. -/
structure Double where
  mantissa : Nat
  exponent : Int
deriving DecidableEq

namespace Double

def zero : Double := ⟨0, -1074⟩

/-! ## Rounding -/

/-- A quotient rounded to the nearest whole number, a half to the even
one. -/
def roundQuotient (n d : Nat) : Nat :=
  if 2 * (n % d) < d ∨ (2 * (n % d) = d ∧ n / d % 2 = 0) then n / d else n / d + 1

/-- The greatest power of two that is no more than a positive
quotient. -/
def leadingPower (n d : Nat) : Int :=
  let e : Int := (n.log2 : Int) - d.log2
  if n * Nat.pow 2 (-e).toNat < d * Nat.pow 2 e.toNat then e - 1 else e

/-- The magnitude nearest to a quotient; `none` when it is beyond double
precision. -/
def ofQuotient? (n d : Nat) : Option Double :=
  if n = 0 then some zero
  else
    let e := max (leadingPower n d - 52) (-1074)
    let m := roundQuotient (n * Nat.pow 2 (-e).toNat) (d * Nat.pow 2 e.toNat)
    let x : Double := if m = Nat.pow 2 53 then ⟨Nat.pow 2 52, e + 1⟩ else ⟨m, e⟩
    if 971 < x.exponent then none else some x

/-- The magnitude nearest to `m * 10 ^ e`. Powers far out of range are
not computed. -/
def ofDecimal? (m : Nat) (e : Int) : Option Double :=
  let top := (Nat.toDigits 10 m).length + e
  if m = 0 ∨ top < -330 then some zero
  else if 310 < top then none
  else ofQuotient? (m * Nat.pow 10 e.toNat) (Nat.pow 10 (-e).toNat)

/-! ## Comparing -/

def isZero (x : Double) : Bool := x.mantissa == 0

def isBelow (x : Double) (count : Nat) : Bool :=
  x.mantissa * Nat.pow 2 x.exponent.toNat < count * Nat.pow 2 (-x.exponent).toNat

end Double

end Predictive
