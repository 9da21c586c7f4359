import Predictive.CommandLine.Output
import Predictive.Console.Folder
import Predictive.Console.Sections
import Predictive.Console.Usage
import Predictive.Journal
import Predictive.Table.Printed
import Predictive.Text.Utf8

/-!
# The console program

The program reads a grammar from a file or asks for its productions,
prints the analysis, and, if the grammar is LL(1), parses the texts it
was given or asks for texts until it is told to stop.

It is a dialogue: in each phase but the last the program has asked for
a line, and `feed` says what it prints and where it goes when the line
comes, or when there are no more. What it prints comes out on a terminal,
and at the first print that fails there the program breaks off (`shown`).

`runOn` carries on the dialogue with the lines of a text, so the whole
program is a function of the library that lays out the table, the
terminal, its arguments, the files it may read and its standard input; a
program that prints and reads as it goes drives the same `feed`.
-/

namespace Predictive

namespace Console

/-! ## Output -/

/-- The records of the journal that are shown: all of them, or the
warnings. -/
def journalOutput (isVerbose : Bool) (records : List Record) : Output :=
  .errorLines ((records.filter fun r => isVerbose || r.level == .warning).map Record.line)

/-! ## Phases -/

/-- Why the program breaks off. -/
inductive Breakdown where
  | endOfInput
  | badCount (e : Text.NumeralError)
  | badPath (path : Text) (e : PathError)
  | badFile (e : Text.Utf8Error)
  | badAnalysis (e : AnalysisError)
deriving DecidableEq

def Breakdown.message : Breakdown → Text
  | endOfInput => "EOF when reading a line"
  | badCount e => e.message
  | badPath path e => e.message path
  | badFile e => e.message
  | badAnalysis e => e.message

inductive Exit where
  | code (n : Nat)
  | broken (why : Breakdown)
deriving DecidableEq

/-- How the program ends: by itself, or because what it relies on for its
output failed. -/
inductive Finish where
  | exit (e : Exit)
  /-- There is no sheet for the table. -/
  | noSheet
  /-- A result cannot be encoded for the terminal. -/
  | unencodable (e : EncodingError)
deriving DecidableEq

def Finish.code (n : Nat) : Finish := .exit (.code n)

def Finish.broken (why : Breakdown) : Finish := .exit (.broken why)

/-- Where the dialogue stands. -/
inductive Phase where
  /-- The number of productions was asked for. -/
  | count
  /-- A production was asked for, `left` more will be; those read are
  kept backwards. -/
  | production (left : Nat) (read : List Text)
  /-- A text to parse was asked for. -/
  | text (study : Study)
  | finished (f : Finish)
deriving DecidableEq

/-! ## Steps -/

/-- The output and the phase to go on with. -/
abbrev Turn := Output × Phase

def saying (o : Output) (t : Turn) : Turn := (o ++ t.1, t.2)

def ask (prompt : Text) (p : Phase) : Turn := (.result prompt, p)

/-- A turn as it comes out on a terminal. -/
def shown (terminal : Encoder) (t : Turn) : Turn :=
  (t.1.delivered terminal,
    match t.1.refusal? terminal with
    | some e => .finished (.unencodable e)
    | none => t.2)

def askText (s : Study) : Turn :=
  ask "\nEnter a string to parse (or 'exit' to quit): " (.text s)

/-- Parses one text; one that is missing is shown as an empty list. -/
def parsing (isVerbose : Bool) (s : Study) (text : Option Text) : Output :=
  let run := s.parse (text.getD [])
  .lines [parseHeading (text.getD "[]")] ++ journalOutput isVerbose (Journal.rejection run) ++
    .lines (parseLines run)

/-- Parses the given texts and ends, with success only if all of them
are accepted. -/
def parseAll (isVerbose : Bool) (s : Study) (texts : List (Option Text)) : Turn :=
  (texts.foldl (fun o text => o ++ parsing isVerbose s text) .nothing,
    .finished (.code (if texts.all fun text => (s.parse (text.getD [])).isAccepted then 0 else 2)))

/-- Goes on to the texts when the grammar is LL(1). -/
def withVerdict (o : Options) (s : Study) : Turn :=
  if s.isLL1 then
    saying (.lines ["\nThe grammar is LL(1). Proceeding..."]) <|
      if o.texts.isEmpty then askText s else parseAll o.isVerbose s o.texts
  else
    (.lines ["\nThe grammar is NOT LL(1). Cannot proceed with parsing."],
      .finished (.code (if o.texts.isEmpty then 0 else 1)))

section

variable (L : PrintedSheets)

def withStudy (o : Options) (s : Study) : Turn :=
  saying (.lines (setLines s)) <|
    match s.table.sheet L.toSheets with
    | none => (.nothing, .finished .noSheet)
    | some sheet => saying (.lines (L.text sheet :: conditionLines s)) (withVerdict o s)

def withLines (o : Options) (lines : List Text) : Turn :=
  match Grammar.ofLines lines with
  | .error e => (.errorLines ["Grammar error: " ++ e.message], .finished (.code 1))
  | .ok g =>
    let r := g.reportStudy
    saying (journalOutput o.isVerbose (Journal.loaded g ++ r.records)) <|
      match r.outcome with
      | .ok s => withStudy L o s
      | .error e => (.nothing, .finished (.broken (.badAnalysis e)))

/-- Asks for the next production, or goes on when none is left. -/
def askProductions (o : Options) (left : Nat) (read : List Text) : Turn :=
  match left with
  | 0 => withLines L o read.reverse
  | left + 1 => ask "Production: " (.production left read)

/-- What an answer that ends the dialogue looks like. -/
def isFarewell (line : Text) : Bool := Text.lowercase (Text.strip line) == "exit"

/-- The answer to a line, or to the end of the input. -/
def feed (o : Options) (p : Phase) (line : Option Text) : Turn :=
  match p, line with
  | .finished f, _ => (.nothing, .finished f)
  | .text _, none => (.nothing, .finished (.code 0))
  | .text s, some line =>
    if isFarewell line then (.nothing, .finished (.code 0))
    else saying (parsing o.isVerbose s (some line)) (askText s)
  | _, none => (.nothing, .finished (.broken .endOfInput))
  | .count, some line =>
    match Text.toInt line with
    | .error e => (.nothing, .finished (.broken (.badCount e)))
    | .ok n => askProductions L o n.toNat []
  | .production left read, some line => askProductions L o left (line :: read)

/-- The first turn: the file is read, or the dialogue begins. -/
def start (o : Options) (files : Text → Except PathError (List UInt8)) : Turn :=
  match o.file with
  | none => ask "Enter number of productions: " .count
  | some path =>
    match files path with
    | .error e => (.nothing, .finished (.broken (.badPath path e)))
    | .ok bytes =>
      match Text.ofUtf8 bytes with
      | .error e => (.nothing, .finished (.broken (.badFile e)))
      | .ok text => withLines L o (Text.lines text)

/-! ## The whole program -/

/-- The lines of standard input; only a line feed ends one. -/
def inputLines (t : Text) : List Text :=
  let pieces := Text.pieces '\n' t
  if pieces.getLast? == some [] then pieces.dropLast else pieces

variable (terminal : Encoder)

/-- What the program prints and how it ends when it is in phase `p` and
the lines come one after another. -/
def converse (o : Options) (p : Phase) : List Text → Output × Finish
  | [] => match shown terminal (feed L o p none) with
    | (said, .finished f) => (said, f)
    | (said, _) => (said, .broken .endOfInput)
  | line :: rest => match p with
    | .finished f => (.nothing, f)
    | p =>
      let (said, p') := shown terminal (feed L o p (some line))
      let (more, f) := converse o p' rest
      (said ++ more, f)

/-- The whole program: what comes out on the terminal and how it ends,
given its arguments, its folder and its standard input. -/
def runOn (args : List Text) (folder : Folder) (input : Text) : Output × Finish :=
  match Order.ofArgs args with
  | .help => (.result helpText, .code 0)
  | .refuse e => (Output.delivered terminal (.message (e.report program usage)), .code 2)
  | .work o =>
    let (said, p) := shown terminal (start L o folder.read)
    let (more, f) := converse L terminal o p (inputLines input)
    (said ++ more, f)

end

/-- What is left of an end outside the program. A program that was broken
off leaves the code of a failure. -/
def Finish.toExit : Finish → Exit
  | exit e => e
  | _ => .code 1

/-- The program with plain sheets, whose output is kept in memory. -/
def run (args : List Text) (folder : Folder) (input : Text) : Output × Exit :=
  let (said, f) := runOn .plain .lenient args folder input
  (said, f.toExit)

end Console

end Predictive
