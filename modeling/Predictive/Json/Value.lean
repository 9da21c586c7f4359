import Predictive.Double.Shortest

/-!
# JSON values

The values that requests, settings and answers are made of. A number is
an integer, a fraction of double precision, or one of the three values
that are no numbers but are read all the same. An object keeps its
members in the order in which they were written; of members with one
name the last counts (`member?`), and a member that is set replaces all
of its name.
-/

namespace Predictive

inductive JsonNumber where
  | integer (n : Int)
  /-- A magnitude with a sign, which zero has too. -/
  | fraction (isNegative : Bool) (magnitude : Double)
  | notANumber
  | infinite (isNegative : Bool)
deriving DecidableEq

inductive JsonValue where
  | null
  | bool (b : Bool)
  | number (n : JsonNumber)
  | string (t : Text)
  | array (elements : List JsonValue)
  | object (members : List (Text × JsonValue))

namespace JsonValue

instance : Inhabited JsonValue := ⟨.null⟩

def member? (name : Text) : JsonValue → Option JsonValue
  | object members => (members.reverse.find? fun m => m.1 == name).map Prod.snd
  | _ => none

def withMember (name : Text) (v : JsonValue) (members : List (Text × JsonValue)) :
    List (Text × JsonValue) :=
  members.filter (·.1 != name) ++ [(name, v)]

def ofInt (n : Int) : JsonValue := number (.integer n)

def ofNat (n : Nat) : JsonValue := ofInt n

def ofText? : Option Text → JsonValue
  | some t => string t
  | none => null

def texts (l : List Text) : JsonValue := array (l.map string)

def string? : JsonValue → Option Text
  | string t => some t
  | _ => none

/-- The values that count as false in a condition: null, false, zero and
whatever is empty. -/
def isTruthy : JsonValue → Bool
  | null => false
  | bool b => b
  | number (.integer n) => n != 0
  | number (.fraction _ x) => !x.isZero
  | number _ => true
  | string t => !t.isEmpty
  | array l => !l.isEmpty
  | object l => !l.isEmpty

end JsonValue

namespace JsonNumber

/-! ## Comparing with a count -/

/-- The count is greater than the number. Nothing is greater than what
is no number. -/
def isExceededBy (count : Nat) : JsonNumber → Bool
  | integer n => n < (count : Int)
  | fraction isNegative x => (isNegative && !x.isZero) || x.isBelow count
  | notANumber => false
  | infinite isNegative => isNegative

/-! ## Writing -/

def text : JsonNumber → Text
  | integer n => Text.ofInt n
  | fraction isNegative x => if isNegative then '-' :: x.text else x.text
  | notANumber => "nan"
  | infinite isNegative => if isNegative then "-inf" else "inf"

end JsonNumber

end Predictive
