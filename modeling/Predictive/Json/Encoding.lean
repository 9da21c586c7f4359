import Predictive.Text.Digits
import Predictive.Text.Utf8

/-!
# The encoding of a JSON text

A JSON text is encoded in one of three ways: in bytes, as UTF-8, or in
units of two or of four bytes, the greater or the lesser byte of a unit
first. It begins with a character of ASCII, so the zeros among its first
four bytes tell which it is; a mark before it tells too, and is no part
of it.

Of units of two bytes, two halves of a pair are one character when they
follow each other. A half that stands alone is read as it is.
-/

namespace Predictive

inductive Encoding where
  | utf8
  | utf16 (isLittle : Bool)
  | utf32 (isLittle : Bool)
deriving DecidableEq

namespace Encoding

/-! ## Telling encodings apart -/

/-- The marks of encodings, a longer one before its beginning. -/
def marks : List (List UInt8 × Encoding) := [
  ([0, 0, 0xFE, 0xFF], utf32 false), ([0xFF, 0xFE, 0, 0], utf32 true),
  ([0xFE, 0xFF], utf16 false), ([0xFF, 0xFE], utf16 true), ([0xEF, 0xBB, 0xBF], utf8)]

/-- The encoding of bytes without a mark, by the zeros at their front. -/
def ofZeros : List UInt8 → Encoding
  | a :: b :: c :: d :: _ =>
    if a = 0 then if b = 0 then utf32 false else utf16 false
    else if b = 0 then if c = 0 ∧ d = 0 then utf32 true else utf16 true
    else utf8
  | [a, b] => if a = 0 then utf16 false else if b = 0 then utf16 true else utf8
  | _ => utf8

/-- The encoding of bytes, and the bytes without the mark before
them. -/
def detect (bytes : List UInt8) : Encoding × List UInt8 :=
  (marks.findSome? fun (mark, e) => (mark.isPrefixOf? bytes).map (e, ·)).getD (ofZeros bytes, bytes)

/-! ## Decoding -/

/-- The number of a unit of bytes. -/
def unit (isLittle : Bool) (bytes : List UInt8) : Nat :=
  Text.ofDigits 256 ((if isLittle then bytes.reverse else bytes).map (·.toNat))

/-- Bytes in units of two; `none` when one is left over. -/
def pairs (isLittle : Bool) : List UInt8 → Option (List Nat)
  | [] => some []
  | a :: b :: rest => (pairs isLittle rest).map (unit isLittle [a, b] :: ·)
  | _ => none

/-- Bytes in units of four; `none` when some are left over. -/
def quads (isLittle : Bool) : List UInt8 → Option (List Nat)
  | [] => some []
  | a :: b :: c :: d :: rest => (quads isLittle rest).map (unit isLittle [a, b, c, d] :: ·)
  | _ => none

def decode? (bytes : List UInt8) : Encoding → Option Text
  | utf8 => (Text.ofUtf8 bytes).toOption
  | utf16 isLittle => (pairs isLittle bytes).map CodePoint.ofNats
  | utf32 isLittle => do
    let units ← quads isLittle bytes
    if units.all (· < 0x110000) then some (units.map CodePoint.ofNat) else none

end Encoding

def Text.ofJsonBytes? (bytes : List UInt8) : Option Text :=
  let (e, bytes) := Encoding.detect bytes
  e.decode? bytes

end Predictive
