import Predictive.Json.Value
import Predictive.Text.Digits

/-!
# Reading JSON texts

The syntax is the strict one - no comma at the end of a list, no control
character inside a string - with three words more, for the values that
are no numbers: `NaN`, `Infinity` and `-Infinity`. Blanks are the space,
the tab and the two line ends. A fraction too great for double precision
is infinite; an integer of more than 4300 digits is refused. Containers
stand inside each other only as far as there is `room`.

Each reader takes what it reads off the front of a text and gives the
rest. The readers of values are bounded by `depth` too, which `read`
chooses so large that no text of its length needs more: of three steps
to a smaller depth at least one takes a code point.
-/

namespace Predictive

/-- Why a text is not read as a JSON text. -/
inductive JsonError where
  | malformed
  /-- More containers are nested than there is room for. -/
  | tooDeep
deriving DecidableEq

namespace JsonValue

def isSpace (c : CodePoint) : Bool :=
  c == .char ' ' || c == .char '\t' || c == .char '\n' || c == .char '\r'

def skip (t : Text) : Text := t.dropWhile isSpace

/-! ## Strings -/

/-- The character that stands escaped by one character. -/
def escaped? (c : CodePoint) : Option Char :=
  match c with
  | .char '"' => some '"'
  | .char '\\' => some '\\'
  | .char '/' => some '/'
  | .char 'b' => some '\x08'
  | .char 'f' => some '\x0c'
  | .char 'n' => some '\n'
  | .char 'r' => some '\r'
  | .char 't' => some '\t'
  | _ => none

/-- The text `t`, which `rest` spells, with the code point numbered `n`
before it, which is spelled by its number. When both are spelled so, the
two halves of a pair are one character. -/
def consNumbered (n : Nat) (rest t : Text) : Text :=
  match t with
  | [] => [.ofNat n]
  | c :: after =>
    if ("\\u" : Text).isPrefixOf rest && CodePoint.isHighHalf n && CodePoint.isLowHalf c.toNat then
      .ofNat (CodePoint.pairNumber n c.toNat) :: after
    else .ofNat n :: t

/-- The rest of a string whose opening mark was read, up to its closing
one. -/
def readString : Text → Except JsonError (Text × Text)
  | [] => .error .malformed
  | .char '"' :: rest => .ok ([], rest)
  | .char '\\' :: .char 'u' :: a :: b :: c :: d :: rest =>
    match [a, b, c, d].mapM Text.hexValue? with
    | none => .error .malformed
    | some digits => (readString rest).map fun (t, after) =>
      (consNumbered (Text.ofDigits 16 digits) rest t, after)
  | .char '\\' :: c :: rest =>
    match escaped? c with
    | none => .error .malformed
    | some c => (readString rest).map fun (t, after) => (c :: t, after)
  | c :: rest =>
    if c = '\\' ∨ c.toNat < 0x20 then .error .malformed
    else (readString rest).map fun (t, after) => (c :: t, after)

/-! ## Numbers -/

/-- The digits at the front of a text. -/
def readDigits (t : Text) : Text × Text := t.span Text.isDigit

/-- A point with digits behind it; without them, nothing is taken. -/
def readFraction (t : Text) : Text × Text :=
  match t with
  | .char '.' :: rest =>
    let (digits, rest) := readDigits rest
    if digits.isEmpty then ([], t) else (digits, rest)
  | _ => ([], t)

/-- The exponent at the front of a text, when there is one. -/
def readExponent (t : Text) : Option Int × Text :=
  match t with
  | c :: rest =>
    if c = .char 'e' ∨ c = .char 'E' then
      let (isNegative, rest) := match rest with
        | .char '-' :: rest => (true, rest)
        | .char '+' :: rest => (false, rest)
        | _ => (false, rest)
      let (digits, rest) := readDigits rest
      if digits.isEmpty then (none, t)
      else
        let n : Int := Text.decimalValue digits
        (some (if isNegative then -n else n), rest)
    else (none, t)
  | [] => (none, t)

/-- The fraction of a sign, digits and a power of ten. -/
def fraction (isNegative : Bool) (digits : Text) (exponent : Int) : JsonNumber :=
  match Double.ofDecimal? (Text.decimalValue digits) exponent with
  | some x => .fraction isNegative x
  | none => .infinite isNegative

def readNumber (t : Text) : Except JsonError (JsonNumber × Text) :=
  let (isNegative, unsigned) := match t with
    | .char '-' :: rest => (true, rest)
    | _ => (false, t)
  let (whole, rest) : Text × Text := match unsigned with
    | .char '0' :: rest => ("0", rest)
    | _ => readDigits unsigned
  let (decimals, rest) := readFraction rest
  let (exponent, rest) := readExponent rest
  if whole.isEmpty then .error .malformed
  else if decimals.isEmpty && exponent.isNone then
    if 4300 < whole.length then .error .malformed
    else
      let n : Int := Text.decimalValue whole
      .ok (.integer (if isNegative then -n else n), rest)
  else
    .ok (fraction isNegative (whole ++ decimals) (exponent.getD 0 - decimals.length), rest)

/-! ## Values -/

def words : List (Text × JsonValue) := [
  ("null", null), ("true", bool true), ("false", bool false), ("NaN", number .notANumber),
  ("Infinity", number (.infinite false)), ("-Infinity", number (.infinite true))]

def readAtom (t : Text) : Except JsonError (JsonValue × Text) :=
  match words.findSome? fun (word, v) => (word.isPrefixOf? t).map (v, ·) with
  | some r => .ok r
  | none => (readNumber t).map fun (n, rest) => (number n, rest)

mutual

def readValue : Nat → Nat → Text → Except JsonError (JsonValue × Text)
  | _, 0, _ => .error .malformed
  | room, depth + 1, t =>
    match t with
    | .char '"' :: rest => (readString rest).map fun (s, rest) => (string s, rest)
    | .char '[' :: rest => readArray room depth (skip rest)
    | .char '\x7b' :: rest => readObject room depth (skip rest)
    | _ => readAtom t

/-- An array whose opening bracket was read. -/
def readArray : Nat → Nat → Text → Except JsonError (JsonValue × Text)
  | 0, _, _ => .error .tooDeep
  | _, 0, _ => .error .malformed
  | room + 1, depth + 1, t =>
    match t with
    | .char ']' :: rest => .ok (array [], rest)
    | _ => (readElements room depth t).map fun (l, rest) => (array l, rest)

/-- An object whose opening brace was read. -/
def readObject : Nat → Nat → Text → Except JsonError (JsonValue × Text)
  | 0, _, _ => .error .tooDeep
  | _, 0, _ => .error .malformed
  | room + 1, depth + 1, t =>
    match t with
    | .char '\x7d' :: rest => .ok (object [], rest)
    | _ => (readMembers room depth t).map fun (l, rest) => (object l, rest)

/-- The elements of an array, at least one, and its closing bracket. -/
def readElements : Nat → Nat → Text → Except JsonError (List JsonValue × Text)
  | _, 0, _ => .error .malformed
  | room, depth + 1, t => do
    let (v, rest) ← readValue room depth t
    match skip rest with
    | .char ']' :: rest => return ([v], rest)
    | .char ',' :: rest =>
      let (l, rest) ← readElements room depth (skip rest)
      return (v :: l, rest)
    | _ => throw .malformed

/-- The members of an object, at least one, and its closing brace. -/
def readMembers : Nat → Nat → Text → Except JsonError (List (Text × JsonValue) × Text)
  | _, 0, _ => .error .malformed
  | room, depth + 1, t =>
    match t with
    | .char '"' :: rest => do
      let (name, rest) ← readString rest
      match skip rest with
      | .char ':' :: rest =>
        let (v, rest) ← readValue room depth (skip rest)
        match skip rest with
        | .char '\x7d' :: rest => return ([(name, v)], rest)
        | .char ',' :: rest =>
          let (l, rest) ← readMembers room depth (skip rest)
          return ((name, v) :: l, rest)
        | _ => throw .malformed
      | _ => throw .malformed
    | _ => .error .malformed

end

/-- The value that a whole text spells, in which as many containers may
be nested as there is room for. -/
def read (room : Nat) (t : Text) : Except JsonError JsonValue := do
  let (v, rest) ← readValue room (3 * t.length + 3) (skip t)
  if (skip rest).isEmpty then return v else throw .malformed

/-- How many containers may be nested in what the service is sent and in
what is set for it. -/
def usualRoom : Nat := 977

end JsonValue

end Predictive
