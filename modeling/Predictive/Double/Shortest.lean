import Predictive.Double.Basic
import Predictive.Text.Basic

/-!
# Shortest decimals

A magnitude of double precision is written with the fewest digits that
are read as it again, and, of several such decimals, as the one nearest
to it; of two equally near ones the even one is taken.

The numbers that are read as a magnitude reach halfway to its neighbours
on both sides, the ends included when its mantissa is even. Ends and
decimals are compared as whole numbers: all are multiples of a quarter of
the last place of the mantissa, or of a power of ten, and a common
denominator is known.
-/

namespace Predictive

namespace Double

/-! ## What is read as a magnitude -/

/-- A quarter of the last place of the mantissa in units of `10 ^ g`, as
a quotient. -/
def quarter (x : Double) (g : Int) : Nat × Nat :=
  (Nat.pow 2 (x.exponent - 2).toNat * Nat.pow 10 (-g).toNat,
    Nat.pow 2 (2 - x.exponent).toNat * Nat.pow 10 g.toNat)

/-- The lower end in quarters. Below a power of two the neighbour is only
half as far, but for the least power. -/
def lowerEnd (x : Double) : Nat :=
  if x.mantissa = Nat.pow 2 52 ∧ -1074 < x.exponent then 4 * x.mantissa - 1 else 4 * x.mantissa - 2

def upperEnd (x : Double) : Nat := 4 * x.mantissa + 2

/-- The decimal `n * 10 ^ g` is read as the magnitude. -/
def isReadFrom (x : Double) (n : Nat) (g : Int) : Bool :=
  let (u, d) := x.quarter g
  let includesEnds := x.mantissa % 2 == 0
  (x.lowerEnd * u < n * d || (includesEnds && x.lowerEnd * u == n * d)) &&
    (n * d < x.upperEnd * u || (includesEnds && n * d == x.upperEnd * u))

/-! ## Choosing a decimal -/

/-- The least power of ten that is more than a magnitude. -/
def leadingPlace (x : Double) : Int :=
  let n := x.mantissa * Nat.pow 2 x.exponent.toNat
  let d := Nat.pow 2 (-x.exponent).toNat
  let k : Int := ((Nat.toDigits 10 n).length : Int) - (Nat.toDigits 10 d).length
  if n * Nat.pow 10 (-k).toNat < d * Nat.pow 10 k.toNat then k else k + 1

/-- The multiple of `10 ^ g` nearest to the magnitude of those next to it
that are read as it. -/
def nearestAt? (x : Double) (g : Int) : Option Nat :=
  let (u, d) := x.quarter g
  let n := 4 * x.mantissa * u / d
  match x.isReadFrom n g, x.isReadFrom (n + 1) g with
  | true, true => some (roundQuotient (4 * x.mantissa * u) d)
  | true, false => some n
  | false, true => some (n + 1)
  | false, false => none

/-- The digits of the shortest decimal of a positive magnitude and the
power of ten that they count. Seventeen digits are enough; were they
not, the exact decimal would be taken. -/
def shortest (x : Double) : Nat × Int :=
  ((List.range 17).findSome? fun (i : Nat) =>
    let g := x.leadingPlace - 1 - (i : Int)
    (x.nearestAt? g).map (·, g)).getD
      (x.mantissa * Nat.pow 2 x.exponent.toNat * Nat.pow 5 (-x.exponent).toNat, min 0 x.exponent)

/-! ## Writing -/

/-- A decimal with the given digits and the point `point` digits from the
left: in positional notation when it is at least a ten-thousandth and
below ten to the sixteenth, otherwise with an exponent of at least two
digits. -/
def layOut (digits : Text) (point : Int) : Text :=
  if -4 < point ∧ point ≤ 16 then
    if point ≤ 0 then "0." ++ Text.zeroFill ((-point).toNat + digits.length) digits
    else
      let whole := digits.take point.toNat
      let fraction := digits.drop point.toNat
      whole ++ (List.replicate (point.toNat - whole.length) '0' : Text) ++ "." ++
        if fraction.isEmpty then ("0" : Text) else fraction
  else
    let mantissa := match digits with
      | d :: e :: rest => d :: '.' :: e :: rest
      | _ => digits
    let sign : Text := if point < 1 then "-" else "+"
    mantissa ++ "e" ++ sign ++ Text.zeroFill 2 (Text.ofNat (point - 1).natAbs)

def dropZeros (digits : Text) : Text := (digits.reverse.dropWhile (· == .char '0')).reverse

def text (x : Double) : Text :=
  if x.isZero then "0.0"
  else
    let (n, g) := x.shortest
    let digits := Text.ofNat n
    layOut (dropZeros digits) (digits.length + g)

end Double

end Predictive
