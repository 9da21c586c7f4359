import Predictive.Json.Reader
import Predictive.Service.Rate

/-!
# Settings of the service

A setting has a name and a JSON value. The service starts from defaults.
Variables of the environment replace them, in the order of their names:
a variable has a prefix before the name, and a value that is taken as
text when it is no JSON text. Settings given when the service is made
replace both. A variable whose name has two low lines in it sets a member
of an object: the parts between low lines lead to it, and objects that
are missing on the way are made.

`Settings` is what the service makes of its settings; those that cannot
be used are refused with the reason.
-/

namespace Predictive

namespace Service

/-! ## Refusals -/

/-- Why settings cannot be used. -/
inductive SettingsError where
  /-- A member is to be set in a value that has none. -/
  | noMembers (v : JsonValue)
  /-- A member is to be looked for in a value that holds nothing. -/
  | notSearchable (v : JsonValue)
  /-- A part of a text is to be taken by name. -/
  | textIndex
  /-- An element of an array is to be taken by name. -/
  | arrayIndex
  | unknownStorage (place : Text)
  | missingPackage (name : Text)
  | unknownStrategy (name : Text)

namespace SettingsError

def kindText : JsonValue → Text
  | .null => "NoneType"
  | .bool _ => "bool"
  | .number (.integer _) => "int"
  | .number _ => "float"
  | .string _ => "str"
  | .array _ => "list"
  | .object _ => "dict"

def message : SettingsError → Text
  | noMembers v => "'" ++ kindText v ++ "' object does not support item assignment"
  | notSearchable v => "argument of type '" ++ kindText v ++ "' is not iterable"
  | textIndex => "string indices must be integers, not 'str'"
  | arrayIndex => "list indices must be integers or slices, not str"
  | unknownStorage place => "unknown storage scheme : " ++ place
  | missingPackage name => name ++ " prerequisite not available"
  | unknownStrategy name => "Invalid rate limiting strategy: " ++ name

end SettingsError

/-! ## Where settings come from -/

/-- Settings by name, each set once. -/
abbrev Layer := List (Text × JsonValue)

def defaultLayer : Layer := [
  ("RATELIMIT_DEFAULT", .string "2000 per day;500 per hour"),
  ("RATELIMIT_STORAGE_URI", .string "memory://"),
  ("RATELIMIT_STRATEGY", .string "fixed-window"),
  ("RATELIMIT_ENABLED", .bool true),
  ("RATELIMIT_HEADERS_ENABLED", .bool true),
  ("ANALYSIS_RATE_LIMIT", .string "1000/minute"),
  ("MAX_PRODUCTIONS", .ofNat 200),
  ("MAX_INPUT_LENGTH", .ofNat 2000)]

/-- A value in which the member at the end of a path is set to `v`. -/
def setAt (v : JsonValue) : List Text → Text → JsonValue → Except SettingsError JsonValue
  | [], name, .object members => .ok (.object (JsonValue.withMember name v members))
  | [], _, .array _ => .error .arrayIndex
  | [], _, other => .error (.noMembers other)
  | part :: path, name, .object members => do
    let inner := ((JsonValue.object members).member? part).getD (.object [])
    return .object (JsonValue.withMember part (← setAt v path name inner) members)
  | part :: _, _, .string t =>
    .error (if (Text.cutAt? part t).isSome then .textIndex else .noMembers (.string t))
  | _ :: _, _, .array _ => .error .arrayIndex
  | _ :: _, _, other => .error (.notSearchable other)

/-- The parts of a name between two low lines that follow each other. -/
def nameParts : Text → List Text
  | .char '_' :: .char '_' :: rest => [] :: nameParts rest
  | c :: rest =>
    match nameParts rest with
    | part :: parts => (c :: part) :: parts
    | [] => [[c]]
  | [] => [[]]

/-- The settings after a variable of the environment. -/
def withVariable (settings : JsonValue) (name value : Text) : Except SettingsError JsonValue :=
  match ("LL1_" : Text).isPrefixOf? name with
  | none => .ok settings
  | some name =>
    let v := match JsonValue.read JsonValue.usualRoom value with
      | .ok v => v
      | .error _ => .string value
    let parts := nameParts name
    setAt v parts.dropLast (parts.getLast?.getD []) settings

/-- All settings: the defaults, then those of an environment, then those
given. -/
def gather (env : List (Text × Text)) (given : Layer) : Except SettingsError JsonValue := do
  let sorted := env.mergeSort fun a b => decide (a.1 ≤ b.1)
  let settings ← sorted.foldlM (fun s (name, value) => withVariable s name value)
    (.object defaultLayer)
  given.foldlM (fun s (name, v) => setAt v [] name s) settings

/-! ## Bounds -/

/-- A bound on a count, as it was set. A truth value bounds by one or
zero. -/
inductive Bound where
  | number (n : JsonNumber)
  | truth (b : Bool)
  | unusable
deriving DecidableEq

namespace Bound

def ofJson : JsonValue → Bound
  | .number n => number n
  | .bool b => truth b
  | _ => unusable

/-- The count is beyond the bound; `none` when there is no telling. -/
def isExceededBy? (count : Nat) : Bound → Option Bool
  | number n => some (n.isExceededBy count)
  | truth b => some (decide (b.toNat < count))
  | unusable => none

def text : Bound → Text
  | number n => n.text
  | truth b => if b then "True" else "False"
  | unusable => "None"

end Bound

/-! ## Rates in force -/

/-- The rates that a setting spells; a setting that is left empty spells
none. -/
def ratesOfJson? : JsonValue → Option (List Rate)
  | .string t => if t.isEmpty then some [] else Rate.readAll? t
  | v => if v.isTruthy then none else some []

/-- The rates of the analysis, or the general ones, each once, when those
are none or cannot be read; `none` when the general ones cannot be read
either. -/
def ratesInForce? (analysis general : JsonValue) : Option (List Rate) :=
  match ratesOfJson? analysis with
  | some (rate :: rates) => some (rate :: rates)
  | _ => (ratesOfJson? general).map List.eraseDups

/-! ## Keeping counts -/

/-- The places to keep counts in, by the scheme of their address, and
the package that each needs. -/
def storages : List (Text × Option Text) := [
  ("memory", none), ("memcached", some "pymemcache"), ("redis", some "redis"),
  ("rediss", some "redis"), ("redis+unix", some "redis"), ("redis+sentinel", some "redis"),
  ("redis+cluster", some "redis"), ("mongodb", some "pymongo"), ("mongodb+srv", some "pymongo"),
  ("etcd", some "etcd3")]

/-- The scheme of an address, in small letters. -/
def schemeOf (address : Text) : Text :=
  match Text.partition ':' address with
  | (scheme, some _) => Text.lowercase scheme
  | _ => []

/-- The place to keep counts in, which may be left empty, must be at
hand. -/
def checkStorage (v : JsonValue) : Except SettingsError Unit :=
  if !v.isTruthy then .ok ()
  else
    let address := v.string?.getD []
    match storages.find? fun s => s.1 == schemeOf address with
    | some (_, none) => .ok ()
    | some (_, some package) => .error (.missingPackage package)
    | none => .error (.unknownStorage address)

/-- The ways to count. With this service all come to the same. -/
def strategies : List Text := ["fixed-window", "moving-window", "sliding-window-counter"]

/-- The way to count must be one of those. -/
def checkStrategy (v : JsonValue) : Except SettingsError Unit :=
  let name := v.string?.getD []
  if strategies.contains name then .ok () else .error (.unknownStrategy name)

/-! ## Settings -/

structure Settings where
  isLimiting : Bool
  /-- Answers tell where the client stands. -/
  showsStanding : Bool
  /-- The rates in force, when they can be read. -/
  rates : Option (List Rate)
  maxProductions : Bound
  maxInputLength : Bound
deriving DecidableEq

/-- The settings that a service makes of an environment and of what it
is given. Where and how requests are counted is looked at only when they
are. -/
def Settings.make (env : List (Text × Text)) (given : Layer) : Except SettingsError Settings := do
  let settings ← gather env given
  let value (name : Text) : JsonValue := (settings.member? name).getD .null
  let isLimiting := (value "RATELIMIT_ENABLED").isTruthy
  if isLimiting then
    checkStorage (value "RATELIMIT_STORAGE_URI")
    checkStrategy (value "RATELIMIT_STRATEGY")
  return {
    isLimiting
    showsStanding := (value "RATELIMIT_HEADERS_ENABLED").isTruthy
    rates := ratesInForce? (value "ANALYSIS_RATE_LIMIT") (value "RATELIMIT_DEFAULT")
    maxProductions := .ofJson (value "MAX_PRODUCTIONS")
    maxInputLength := .ofJson (value "MAX_INPUT_LENGTH") }

end Service

end Predictive
