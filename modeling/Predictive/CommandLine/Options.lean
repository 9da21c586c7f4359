import Predictive.Text.Numeral

/-!
# Reading command lines

A command has options, each with a letter and a long name, some of them
with a value, and one positional argument that may be left out. The
long name may be shortened as far as it stays unique; the value may be
attached, with or without an equals sign, or be the next argument;
letters without a value may share one dash with what follows them, where
an equals sign behind the first of them is passed over. After `--`
everything is positional.

An argument looks like an option when it starts with a dash, is longer
than that, is no negative number and has no blank in it. What looks
like an option that the command does not have, and what is positional
beyond the first, is kept as unrecognized and refused only at the end,
so an option that ends the reading early, such as help, still acts.

`Reading.ofArgs` gives what was taken in order, so that each command
decides what to do with it.
-/

namespace Predictive

/-! ## Options -/

/-- An option of a command. -/
structure OptionSpec where
  letter : Char
  name : Text
  takesValue : Bool
deriving DecidableEq

namespace OptionSpec

def short (o : OptionSpec) : Text := ['-', o.letter]

def long (o : OptionSpec) : Text := "--" ++ o.name

/-- The option as messages name it. -/
def text (o : OptionSpec) : Text := o.short ++ "/" ++ o.long

end OptionSpec

/-- Why a command line is refused. -/
inductive UsageError where
  /-- A shortened name fits several options. -/
  | ambiguous (argument : Text) (candidates : List Text)
  | missingValue (o : OptionSpec)
  | unusedValue (o : OptionSpec) (value : Text)
  | notInteger (o : OptionSpec) (value : Text)
  | notAChoice (name value : Text) (choices : List Text)
  | unrecognized (arguments : List Text)
deriving DecidableEq

def UsageError.message : UsageError → Text
  | ambiguous argument candidates =>
    "ambiguous option: " ++ argument ++ " could match " ++ Text.join ", " candidates
  | missingValue o => "argument " ++ o.text ++ ": expected one argument"
  | unusedValue o value =>
    "argument " ++ o.text ++ ": ignored explicit argument " ++ Text.quoted value
  | notInteger o value => "argument " ++ o.text ++ ": invalid int value: " ++ Text.quoted value
  | notAChoice name value choices =>
    "argument " ++ name ++ ": invalid choice: " ++ Text.quoted value ++ " (choose from " ++
      Text.join ", " (choices.map Text.quoted) ++ ")"
  | unrecognized arguments => "unrecognized arguments: " ++ Text.join " " arguments

/-! ## Words -/

/-- An argument, by what it looks like. -/
inductive Word where
  | plain (t : Text)
  | separator
  /-- An option of the command, written short or not, and the value
  attached to it. -/
  | option (o : OptionSpec) (isShort : Bool) (attached : Option Text)
  /-- It looks like an option and is none. -/
  | stray (t : Text)
deriving DecidableEq

namespace Word

/-- A text of decimal digits of any script, at least one. -/
def isDigits (t : Text) : Bool := !t.isEmpty && t.all fun c => (Text.digitValue? c).isSome

/-- A minus before digits that may have a point among or before them. A
line end behind them is not looked at. -/
def isNegativeNumber (t : Text) : Bool :=
  let isUnsigned (t : Text) : Bool :=
    match Text.partition '.' t with
    | (whole, none) => isDigits whole
    | (whole, some fraction) => (whole.isEmpty || isDigits whole) && isDigits fraction
  match t with
  | .char '-' :: rest =>
    isUnsigned rest || (rest.getLast? == some (.char '\n') && isUnsigned rest.dropLast)
  | _ => false

/-- The option written so in full, and whether it is written short. -/
def find? (options : List OptionSpec) (t : Text) : Option (OptionSpec × Bool) :=
  options.findSome? fun o =>
    if t = o.short then some (o, true) else if t = o.long then some (o, false) else none

/-- The reading of an argument that starts with a dash, is longer than
that, and is no option as it stands. -/
def ofDashed (options : List OptionSpec) (t : Text) : Except UsageError Word :=
  let (front, value) := Text.partition '=' t
  match value.bind fun v => (find? options front).map (·, v) with
  | some ((o, isShort), v) => .ok (.option o isShort (some v))
  | none =>
    let other : Word :=
      if isNegativeNumber t || t.contains (.char ' ') then .plain t else .stray t
    if t[1]? = some (.char '-') then
      match options.filter fun o => front.isPrefixOf o.long with
      | [] => .ok other
      | [o] => .ok (.option o false value)
      | several => .error (.ambiguous t (several.map OptionSpec.long))
    else
      match options.find? fun o => o.short == t.take 2 with
      | some o => .ok (.option o true (some (t.drop 2)))
      | none => .ok other

def ofArg (options : List OptionSpec) (t : Text) : Except UsageError Word :=
  match t with
  | .char '-' :: _ :: _ =>
    match find? options t with
    | some (o, isShort) => .ok (.option o isShort none)
    | none => ofDashed options t
  | _ => .ok (.plain t)

/-- What the arguments look like; after the separator all are plain. -/
def ofArgs (options : List OptionSpec) : List Text → Except UsageError (List Word)
  | [] => .ok []
  | t :: rest =>
    if t = "--" then .ok (.separator :: rest.map .plain)
    else do
      let word ← ofArg options t
      let words ← ofArgs options rest
      return word :: words

end Word

/-! ## Taking -/

/-- Something taken from a command line. An option that takes a value may
be given the separator for it, and has no value then. -/
inductive Taken where
  | option (o : OptionSpec) (value : Option Text)
  | positional (t : Text)
deriving DecidableEq

/-- What one argument with options gives: the options in it, and whether
the next argument was used. -/
structure Cluster where
  taken : List Taken
  usesNext : Bool
deriving DecidableEq

namespace Cluster

/-- The options of one argument. To a letter without a value further
letters may be attached. -/
def ofOption (options : List OptionSpec) (next : Option Text) (o : OptionSpec) (isShort : Bool)
    (attached : Option Text) : Except UsageError Cluster :=
  match attached with
  | none =>
    if o.takesValue then
      match next with
      | some value => .ok ⟨[.option o (some value)], true⟩
      | none => .error (.missingValue o)
    else .ok ⟨[.option o none], false⟩
  | some value =>
    if o.takesValue then .ok ⟨[.option o (if value = "--" then none else some value)], false⟩
    else
      match value with
      | [] => .error (.unusedValue o value)
      | c :: rest =>
        match if isShort then options.find? fun o => c = o.letter else none with
        | none => .error (.unusedValue o value)
        | some o' =>
          match ofOption options next o' true (if rest.isEmpty then none else some rest) with
          | .ok more => .ok { more with taken := .option o none :: more.taken }
          | .error e => .error e
termination_by (attached.map (·.length + 1)).getD 0
decreasing_by split <;> simp_all

/-- The words behind an option, without the one that was its value. -/
def remaining (c : Cluster) (words : List Word) : List Word :=
  if c.usesNext then words.tail else words

theorem length_remaining_le (c : Cluster) (words : List Word) :
    (c.remaining words).length ≤ words.length := by
  rw [remaining]
  split
  · rw [List.length_tail]
    exact Nat.sub_le ..
  · exact Nat.le_refl _

end Cluster

/-! ## Reading -/

/-- What was read of a command line: the things taken, in order, the
arguments left over, and the fault at which reading stopped. -/
structure Reading where
  taken : List Taken
  unrecognized : List Text
  fault : Option UsageError
deriving DecidableEq

namespace Reading

/-- The reading that first took, or left over, something else. -/
def after (taken : List Taken) (unrecognized : List Text) (r : Reading) : Reading :=
  { r with taken := taken ++ r.taken, unrecognized := unrecognized ++ r.unrecognized }

def plain? : List Word → Option Text
  | .plain t :: _ => some t
  | _ => none

/-- Reads words; `vacant` says that the positional argument is still to
be taken. It takes a separator beside it along. -/
def ofWords (options : List OptionSpec) (vacant : Bool) (words : List Word) : Reading :=
  match words with
  | [] => ⟨[], [], none⟩
  | .plain t :: .separator :: rest =>
    if vacant then after [.positional t] [] (ofWords options false rest)
    else after [] [t, "--"] (ofWords options false rest)
  | .plain t :: rest =>
    if vacant then after [.positional t] [] (ofWords options false rest)
    else after [] [t] (ofWords options false rest)
  | .separator :: .plain t :: rest =>
    if vacant then after [.positional t] [] (ofWords options false rest)
    else after [] ["--", t] (ofWords options false rest)
  | .separator :: rest =>
    if vacant then ofWords options false rest
    else after [] ["--"] (ofWords options false rest)
  | .stray t :: rest => after [] [t] (ofWords options vacant rest)
  | .option o isShort attached :: rest =>
    match Cluster.ofOption options (plain? rest) o isShort attached with
    | .error e => ⟨[], [], some e⟩
    | .ok cluster =>
      have := cluster.length_remaining_le rest
      after cluster.taken [] (ofWords options vacant (cluster.remaining rest))
termination_by words.length
decreasing_by all_goals simp only [List.length_cons]; omega

def ofArgs (options : List OptionSpec) (args : List Text) : Reading :=
  match Word.ofArgs options args with
  | .error e => ⟨[], [], some e⟩
  | .ok words => ofWords options true words

/-- What is wrong with a command line when nothing taken from it was:
the fault, or else the arguments left over. -/
def complaint? (r : Reading) : Option UsageError :=
  match r.fault with
  | some e => some e
  | none => if r.unrecognized.isEmpty then none else some (.unrecognized r.unrecognized)

end Reading

/-! ## Refusing -/

/-- What is written about a refused command line. -/
def UsageError.report (program usage : Text) (e : UsageError) : Text :=
  usage ++ "\n" ++ program ++ ": error: " ++ e.message ++ "\n"

end Predictive
