import Predictive.Text.Basic

/-!
# Texts from bytes

Reading the UTF-8 encoding of a text. A refusal says where it stopped:
at a byte that starts no character, at a sequence whose next byte does
not continue it, or at the end of the data inside a sequence. The bytes
named are the longest part of the sequence that was still possible.
-/

namespace Predictive

namespace Text

inductive Utf8Fault where
  | invalidStart
  | invalidContinuation
  | endOfData
deriving DecidableEq

/-- A refusal to read bytes: the fault, the position of the first byte
concerned, that byte, and how many bytes are concerned. -/
structure Utf8Error where
  fault : Utf8Fault
  position : Nat
  byte : UInt8
  length : Nat
deriving DecidableEq

def Utf8Fault.message : Utf8Fault → Text
  | .invalidStart => "invalid start byte"
  | .invalidContinuation => "invalid continuation byte"
  | .endOfData => "unexpected end of data"

/-- The wording of a refusal, which names a single byte by its value
and several by the range of their positions. -/
def Utf8Error.message (e : Utf8Error) : Text :=
  let which : Text :=
    if e.length = 1 then
      "byte 0x" ++ zeroFill 2 (digits 16 e.byte.toNat) ++ " in position " ++
        ofNat e.position
    else "bytes in position " ++ ofNat e.position ++ "-" ++ ofNat (e.position + e.length - 1)
  "'utf-8' codec can't decode " ++ which ++ ": " ++ e.fault.message

def isTail (b : UInt8) : Bool := 0x80 ≤ b && b ≤ 0xBF

/-- A second byte that the first byte of a longer sequence allows:
overlong forms, surrogates and code points past the last are shut out
here. -/
def isSecond (b₀ b₁ : UInt8) : Bool :=
  isTail b₁ && !(b₀ == 0xE0 && b₁ < 0xA0) && !(b₀ == 0xED && 0xA0 ≤ b₁) &&
    !(b₀ == 0xF0 && b₁ < 0x90) && !(b₀ == 0xF4 && 0x90 ≤ b₁)

/-- The character of a lead byte's value bits followed by those of its
tail. -/
def charOfBytes (lead : Nat) (tail : List UInt8) : Char :=
  Char.ofNat (tail.foldl (fun n b => 64 * n + (b.toNat - 0x80)) lead)

/-- The text of the bytes from `position` on. -/
def ofUtf8From (position : Nat) : List UInt8 → Except Utf8Error Text
  | [] => .ok []
  | b₀ :: rest =>
    let refuse (fault : Utf8Fault) (length : Nat) : Except Utf8Error Text :=
      .error ⟨fault, position, b₀, length⟩
    if b₀ < 0x80 then (ofUtf8From (position + 1) rest).map (Char.ofNat b₀.toNat :: ·)
    else if b₀ < 0xC2 || 0xF5 ≤ b₀ then refuse .invalidStart 1
    else match rest with
      | [] => refuse .endOfData 1
      | b₁ :: rest =>
        if !isSecond b₀ b₁ then refuse .invalidContinuation 1
        else if b₀ < 0xE0 then
          (ofUtf8From (position + 2) rest).map (charOfBytes (b₀.toNat - 0xC0) [b₁] :: ·)
        else match rest with
          | [] => refuse .endOfData 2
          | b₂ :: rest =>
            if !isTail b₂ then refuse .invalidContinuation 2
            else if b₀ < 0xF0 then
              (ofUtf8From (position + 3) rest).map (charOfBytes (b₀.toNat - 0xE0) [b₁, b₂] :: ·)
            else match rest with
              | [] => refuse .endOfData 3
              | b₃ :: rest =>
                if !isTail b₃ then refuse .invalidContinuation 3
                else (ofUtf8From (position + 4) rest).map
                  (charOfBytes (b₀.toNat - 0xF0) [b₁, b₂, b₃] :: ·)

def ofUtf8 (bytes : List UInt8) : Except Utf8Error Text := ofUtf8From 0 bytes

end Text

end Predictive
