/-!
# Code points

What texts are made of: characters, and the halves of surrogate pairs.
A half without its partner is no character, but data can hold one, and
then it counts, compares and is quoted like any other code point; only
encoding it fails.

Code points are ordered by their numbers. A number belongs to one code
point (`toNat_inj`), so the order is total.
-/

namespace Predictive

inductive CodePoint where
  | char (c : Char)
  /-- One half of a surrogate pair, counted from the first of all
  halves. -/
  | half (i : Fin 0x800)
deriving DecidableEq

namespace CodePoint

instance : Coe Char CodePoint := ⟨char⟩

instance : Inhabited CodePoint := ⟨char ' '⟩

/-! ## Numbers -/

def firstHalf : Nat := 0xD800

def toNat : CodePoint → Nat
  | char c => c.toNat
  | half i => firstHalf + i

def ofNat (n : Nat) : CodePoint :=
  if h : n - firstHalf < 0x800 ∧ firstHalf ≤ n then half ⟨n - firstHalf, h.1⟩ else char (.ofNat n)

/-- No character has the number of a half. -/
theorem toNat_char_ne (c : Char) (i : Fin 0x800) : c.toNat ≠ firstHalf + i := by
  have hc : c.toNat < 0xD800 ∨ 0xDFFF < c.toNat ∧ c.toNat < 0x110000 := c.valid
  have hi := i.isLt
  simp only [firstHalf]
  omega

theorem toNat_inj {a b : CodePoint} (h : a.toNat = b.toNat) : a = b := by
  cases a with
  | char c =>
    cases b with
    | char d => exact congrArg char (Char.toNat_inj.1 h)
    | half j => exact absurd h (toNat_char_ne c j)
  | half i =>
    cases b with
    | char d => exact absurd h.symm (toNat_char_ne d i)
    | half j => exact congrArg half (Fin.ext (Nat.add_left_cancel h))

/-- The first half of a pair. -/
def isHighHalf (n : Nat) : Bool := 0xD800 ≤ n && n < 0xDC00

/-- The second half of a pair. -/
def isLowHalf (n : Nat) : Bool := 0xDC00 ≤ n && n < 0xE000

/-- The number of the character that two halves make. -/
def pairNumber (high low : Nat) : Nat := 0x10000 + 0x400 * (high - 0xD800) + (low - 0xDC00)

/-- The code points with the given numbers, in which a first half and a
second half that follow each other are one character. -/
def ofNats : List Nat → List CodePoint
  | [] => []
  | [n] => [ofNat n]
  | high :: low :: rest =>
    if isHighHalf high && isLowHalf low then ofNat (pairNumber high low) :: ofNats rest
    else ofNat high :: ofNats (low :: rest)

/-! ## Order -/

instance : LT CodePoint := ⟨fun a b => a.toNat < b.toNat⟩

instance : LE CodePoint := ⟨fun a b => a.toNat ≤ b.toNat⟩

instance : DecidableLT CodePoint := fun a b => inferInstanceAs (Decidable (a.toNat < b.toNat))

instance : DecidableLE CodePoint := fun a b => inferInstanceAs (Decidable (a.toNat ≤ b.toNat))

instance : Std.Irrefl (α := CodePoint) (· < ·) := ⟨fun a => Nat.lt_irrefl a.toNat⟩

instance : Std.Asymm (α := CodePoint) (· < ·) := ⟨fun _ _ h h' => Nat.lt_asymm h h'⟩

instance : Trans (α := CodePoint) (· < ·) (· < ·) (· < ·) := ⟨fun h h' => Nat.lt_trans h h'⟩

instance : Std.Antisymm (α := CodePoint) (¬ · < ·) :=
  ⟨fun _ _ h h' => toNat_inj (Nat.le_antisymm (Nat.not_lt.1 h') (Nat.not_lt.1 h))⟩

/-! ## Letters -/

def toLower : CodePoint → CodePoint
  | char c => char c.toLower
  | half i => half i

def toUpper : CodePoint → CodePoint
  | char c => char c.toUpper
  | half i => half i

def char? : CodePoint → Option Char
  | char c => some c
  | half _ => none

end CodePoint

end Predictive
