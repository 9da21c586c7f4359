import Predictive.Text.Quoted

/-!
# Texts that can be encoded

What an encoder does with a text. It takes every character; a half of a
surrogate pair it may take or refuse. Encoders for paths take the halves
that stand for bytes, a terminal may take none, and what is kept in
memory is not encoded at all.

A text is taken when each of its code points is. Otherwise its refusal
names the first code point that is not taken, and how many halves stand
there one after another.
-/

namespace Predictive

/-- What can be encoded: all characters, and some halves. -/
structure Encoder where
  takes : CodePoint → Bool
  takes_char : ∀ c : Char, takes c = true

/-- The code points of a text that cannot be encoded, from `first` on. -/
structure EncodingError where
  first : CodePoint
  position : Nat
  length : Nat
deriving DecidableEq

/-- The wording of a refusal, which shows a single code point and gives
several by the range of their positions. -/
def EncodingError.message (e : EncodingError) : Text :=
  let which : Text :=
    if e.length = 1 then
      " " ++ Text.quoted [e.first] ++ " in position " ++ Text.ofNat e.position
    else
      "s in position " ++ Text.ofNat e.position ++ "-" ++ Text.ofNat (e.position + e.length - 1)
  "'utf-8' codec can't encode character" ++ which ++ ": surrogates not allowed"

/-- A half that stands for a byte of what is no encoded text. -/
def CodePoint.isByte (c : CodePoint) : Bool := 0xDC80 ≤ c.toNat && c.toNat ≤ 0xDCFF

namespace Encoder

/-! ## Encoders -/

/-- Takes characters and nothing else. -/
def strict : Encoder := ⟨fun c => c.char?.isSome, fun _ => rfl⟩

/-- Takes the halves that stand for bytes as well. -/
def keepingBytes : Encoder := ⟨fun c => c.char?.isSome || c.isByte, fun _ => rfl⟩

/-- Takes every code point. -/
def lenient : Encoder := ⟨fun _ => true, fun _ => rfl⟩

/-! ## Texts -/

/-- Every code point of the text is taken. -/
def Takes (e : Encoder) (t : Text) : Prop := ∀ c ∈ t, e.takes c = true

instance (e : Encoder) (t : Text) : Decidable (e.Takes t) :=
  inferInstanceAs (Decidable (∀ c ∈ t, e.takes c = true))

/-- Why a text cannot be encoded, when it cannot. -/
def refusal? (e : Encoder) (t : Text) : Option EncodingError :=
  match t.dropWhile e.takes with
  | [] => none
  | first :: rest =>
    some ⟨first, (t.takeWhile e.takes).length, (rest.takeWhile fun c => c.char?.isNone).length + 1⟩

/-- A text with the code points that cannot be encoded written by their
numbers. -/
def escaped (e : Encoder) (t : Text) : Text :=
  t.flatMap fun c => if e.takes c then [c] else Text.escapedCode c.toNat

end Encoder

end Predictive
