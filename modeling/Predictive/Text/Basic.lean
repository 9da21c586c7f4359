import Predictive.Text.CodePoint

/-!
# Texts

A text is the list of its code points, so every length, position and
width in this library counts code points, and two texts compare by
their code points in order. Literals are written as strings; they are
read as texts where a text is expected.

The functions below cut texts: at blanks, at line breaks, at the first
place of a mark. `cutAt?_eq_some` and `unblank_strip` are what later
files use of them: the parts of a cut give the text back, and stripping
blanks changes nothing for a reader that drops blanks anyway.
-/

namespace Predictive

/-- A text is the list of its code points. -/
abbrev Text := List CodePoint

namespace Text

def ofString (s : String) : Text := s.toList.map .char

instance : Coe String Text := ⟨ofString⟩

/-- The text can be encoded: it is made of characters alone. -/
def isEncodable (t : Text) : Bool := t.all fun c => c.char?.isSome

/-- The characters of a text, when it is made of nothing else. -/
def chars? (t : Text) : Option (List Char) := t.mapM CodePoint.char?

/-! ## Blanks -/

/-- The code points that count as white space: the ASCII controls that
move the carriage or separate information, the space, and every space
and line separator of Unicode. The zero-width space, the byte-order
mark and the Mongolian vowel separator are not blanks. -/
def isBlank (c : CodePoint) : Bool :=
  let n := c.toNat
  (0x09 ≤ n && n ≤ 0x0D) || (0x1C ≤ n && n ≤ 0x20) || n == 0x85 || n == 0xA0 || n == 0x1680 ||
    (0x2000 ≤ n && n ≤ 0x200A) || n == 0x2028 || n == 0x2029 || n == 0x202F || n == 0x205F ||
    n == 0x3000

def unblank (t : Text) : Text := t.filter (!isBlank ·)

def strip (t : Text) : Text := ((t.dropWhile isBlank).reverse.dropWhile isBlank).reverse

theorem unblank_dropWhile (t : Text) : unblank (t.dropWhile isBlank) = unblank t := by
  induction t with
  | nil => rfl
  | cons c t ih =>
    by_cases h : isBlank c <;> simp_all [unblank]

theorem unblank_reverse (t : Text) : unblank t.reverse = (unblank t).reverse :=
  List.filter_reverse ..

theorem unblank_strip (t : Text) : unblank (strip t) = unblank t := by
  rw [strip, unblank_reverse, unblank_dropWhile, unblank_reverse, unblank_dropWhile,
    List.reverse_reverse]

/-! ## Lines -/

/-- The code points that end a line. A carriage return followed by a
line feed is one break. -/
def isLineBreak (c : CodePoint) : Bool :=
  let n := c.toNat
  (0x0A ≤ n && n ≤ 0x0D) || (0x1C ≤ n && n ≤ 0x1E) || n == 0x85 || n == 0x2028 || n == 0x2029

/-- The lines of a text that continues a line already begun with
`begun`, read backwards. -/
def linesFrom (begun : Text) : Text → List Text
  | [] => if begun.isEmpty then [] else [begun.reverse]
  | .char '\r' :: .char '\n' :: rest => begun.reverse :: linesFrom [] rest
  | c :: rest =>
    if isLineBreak c then begun.reverse :: linesFrom [] rest else linesFrom (c :: begun) rest

/-- The lines of a text. A break ends a line rather than starting one,
so a final break adds no empty line. -/
def lines (t : Text) : List Text := linesFrom [] t

/-! ## Cutting -/

/-- The texts before and after the first occurrence of `mark`. -/
def cutAt? (mark : Text) : Text → Option (Text × Text)
  | [] => if mark.isEmpty then some ([], []) else none
  | c :: rest =>
    if mark.isPrefixOf (c :: rest) then some ([], (c :: rest).drop mark.length)
    else (cutAt? mark rest).map fun (before, after) => (c :: before, after)

/-- The two parts of a cut, with the mark between them, are the text. -/
theorem cutAt?_eq_some {mark t before after : Text} (h : cutAt? mark t = some (before, after)) :
    t = before ++ mark ++ after := by
  induction t generalizing before with
  | nil =>
    by_cases hm : mark.isEmpty <;> simp_all [cutAt?]
  | cons c t ih =>
    by_cases hp : mark.isPrefixOf (c :: t) = true
    · simp only [cutAt?, hp, if_true, Option.some.injEq, Prod.mk.injEq] at h
      obtain ⟨rfl, rfl⟩ := h
      obtain ⟨r, hr⟩ := List.isPrefixOf_iff_prefix.1 hp
      simp [← hr]
    · simp only [cutAt?, hp, if_false, Option.map_eq_some_iff, Bool.false_eq_true] at h
      obtain ⟨⟨b, a⟩, hba, heq⟩ := h
      simp only [Prod.mk.injEq] at heq
      obtain ⟨rfl, rfl⟩ := heq
      simp [ih hba]

/-- What stands before the first occurrence of a code point, and what
stands after it when it occurs. -/
def partition (sep : CodePoint) (t : Text) : Text × Option Text :=
  match cutAt? [sep] t with
  | some (before, after) => (before, some after)
  | none => (t, none)

def pieces (sep : CodePoint) (t : Text) : List Text := t.splitOn sep

/-! ## Putting together -/

/-- The texts in order with `sep` between neighbours. -/
def join (sep : Text) (parts : List Text) : Text := List.intercalate sep parts

/-- A number in digits to a base, at most sixteen. -/
def digits (base n : Nat) : Text := (Nat.toDigits base n).map .char

/-- The text at the right of a field of the given width, filled up with
zeros. -/
def zeroFill (width : Nat) (t : Text) : Text := t.leftpad width '0'

def ofNat (n : Nat) : Text := digits 10 n

/-- A signed number in decimal digits, a negative one after a minus. -/
def ofInt : Int → Text
  | .ofNat n => ofNat n
  | .negSucc n => '-' :: ofNat (n + 1)

/-- The text at the left of a field of the given width. -/
def padRight (width : Nat) (t : Text) : Text := t.rightpad width ' '

/-- The text at the right of a field of the given width. -/
def padLeft (width : Nat) (t : Text) : Text := t.leftpad width ' '

/-- A text with the ASCII capitals made small. -/
def lowercase (t : Text) : Text := t.map CodePoint.toLower

/-- A text with the small letters of ASCII made capitals. -/
def uppercase (t : Text) : Text := t.map CodePoint.toUpper

/-- Each line of a report, ended by a line feed. -/
def unlines (rows : List Text) : Text := rows.flatMap (· ++ "\n")

end Text

end Predictive
