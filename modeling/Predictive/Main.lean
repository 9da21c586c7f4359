import Predictive.Console.Dialogue

/-!
# The console program at work

Reads and prints for the dialogue of the console program, and decides
nothing: what is said to each line is `Console.feed`.
-/

namespace Predictive

namespace Console

/-- Prints what comes out on a terminal. -/
def say (o : Output) : IO Unit := do
  for p in o.prints do
    let stream ← match p.stream with
      | .results => IO.getStdout
      | .messages => IO.getStderr
    match p.text.chars? with
    | some chars => stream.putStr (String.ofList chars)
    | none => throw (.userError "a print that cannot be encoded")
    stream.flush

/-- The next line of standard input without its line feed. -/
def nextLine : IO (Option Text) := do
  let input ← IO.getStdin
  let line := Text.ofString (← input.getLine)
  if line.isEmpty then return none
  return some (if line.getLast? == some (.char '\n') then line.dropLast else line)

def pathErrorOf : IO.Error → PathError
  | .inappropriateType _ code _ => if code = 21 then .isFolder else .notFolder
  | .invalidArgument _ _ _ => .tooLong
  | _ => .missing

def fileBytes (path : Text) : IO (Except PathError (List UInt8)) := do
  match pathError? path, path.chars? with
  | some e, _ => return .error e
  -- no file has a name that stands for bytes which are no text
  | none, none => return .error .missing
  | none, some chars =>
    try
      let bytes ← IO.FS.readBinFile (String.ofList chars)
      return .ok bytes.toList
    catch e => return .error (pathErrorOf e)

/-- Prints a turn, and carries on the dialogue until it is finished. -/
partial def carryOn (o : Options) (t : Turn) : IO Finish := do
  let (said, p) := shown .strict t
  say said
  match p with
  | .finished f => return f
  | p => carryOn o (feed .plain o p (← nextLine))

def complain (message : Text) : IO Unit :=
  say (Output.delivered .strict (.errorLines [message]))

def leave (f : Finish) : IO UInt32 := do
  match f with
  | .exit (.code n) => return n.toUInt32
  | .exit (.broken why) => complain why.message
  | .noSheet => complain "no sheet for the parsing table"
  | .unencodable e => complain e.message
  return 1

def carryOut (order : Order) : IO UInt32 := do
  match order with
  | .help =>
    say (.result helpText)
    return 0
  | .refuse e =>
    say (Output.delivered .strict (.message (e.report program usage)))
    return 2
  | .work o =>
    let bytes ← match o.file with
      | some path => fileBytes path
      | none => pure (.error .missing)
    leave (← carryOn o (start .plain o fun _ => bytes))

end Console

end Predictive

def main (args : List String) : IO UInt32 :=
  Predictive.Console.carryOut (.ofArgs (args.map Predictive.Text.ofString))
