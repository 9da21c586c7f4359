import Predictive.Json.Value

/-!
# Writing JSON texts

A value is written without blanks, the members of an object in the
order of their names. In a string the two marks and the control
characters are escaped, five of these by a letter; every other code
point stands for itself.
-/

namespace Predictive

namespace JsonValue

/-! ## Strings -/

def escapedPoint (c : CodePoint) : Text :=
  if c = '"' ∨ c = '\\' then ['\\', c]
  else if c = '\n' then "\\n"
  else if c = '\r' then "\\r"
  else if c = '\t' then "\\t"
  else if c = '\x08' then "\\b"
  else if c = '\x0c' then "\\f"
  else if c.toNat < 0x20 then "\\u" ++ Text.zeroFill 4 (Text.digits 16 c.toNat)
  else [c]

def stringText (t : Text) : Text := "\"" ++ t.flatMap escapedPoint ++ "\""

/-! ## Numbers -/

/-- A number, those that are none by their word. -/
def numberText : JsonNumber → Text
  | .notANumber => "NaN"
  | .infinite isNegative => if isNegative then "-Infinity" else "Infinity"
  | n => n.text

/-! ## Values -/

/-- Members, written already, in the order of their names and between
braces. -/
def objectText (members : List (Text × Text)) : Text :=
  let sorted := members.mergeSort fun a b => decide (a.1 ≤ b.1)
  "\x7b" ++ Text.join "," (sorted.map fun m => stringText m.1 ++ ":" ++ m.2) ++ "\x7d"

mutual

def text : JsonValue → Text
  | null => "null"
  | bool b => if b then "true" else "false"
  | number n => numberText n
  | string t => stringText t
  | array elements => "[" ++ Text.join "," (elementTexts elements) ++ "]"
  | object members => objectText (memberTexts members)

def elementTexts : List JsonValue → List Text
  | [] => []
  | v :: rest => text v :: elementTexts rest

def memberTexts : List (Text × JsonValue) → List (Text × Text)
  | [] => []
  | (name, v) :: rest => (name, text v) :: memberTexts rest

end

/-! ## Encoding -/

mutual

/-- All texts in the value can be encoded, so the value can be when it is
written. -/
def isEncodable : JsonValue → Bool
  | string t => Text.isEncodable t
  | array elements => areEncodable elements
  | object members => areMembersEncodable members
  | _ => true

def areEncodable : List JsonValue → Bool
  | [] => true
  | v :: rest => isEncodable v && areEncodable rest

def areMembersEncodable : List (Text × JsonValue) → Bool
  | [] => true
  | (name, v) :: rest => Text.isEncodable name && isEncodable v && areMembersEncodable rest

end

end JsonValue

end Predictive
