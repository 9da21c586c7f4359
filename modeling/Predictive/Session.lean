import Predictive.Journal

/-!
# Sessions

A session holds the lines of a grammar, the study of the grammar it
read last, and its answer to the last text. Reading the lines replaces
the study as a whole or, when it fails, leaves it alone; solving a text
touches nothing but the answer. A text is parsed only when the studied
grammar is LL(1), and refused otherwise, also when nothing was read
yet.
-/

namespace Predictive

/-- Where the lines of a grammar come from. -/
inductive Source where
  | text (t : Text)
  | lines (l : List Text)
deriving DecidableEq

def Source.read : Source → Except GrammarError Grammar
  | text t => Grammar.ofText t
  | lines l => Grammar.ofLines l

/-- What a session said about the last text it was given. -/
inductive Answer where
  /-- No text was given yet. -/
  | none
  /-- The text was not looked at. -/
  | refused
  | parsed (run : Run)
deriving DecidableEq

/-- What is shown of an answer: the steps column by column, and the
verdict. -/
structure AnswerTable where
  numberColumn : List Nat
  stackColumn : List Text
  inputColumn : List Text
  actionColumn : List Text
  verdict : Text
deriving DecidableEq

namespace Answer

def table? : Answer → Option AnswerTable
  | none => .none
  | refused => some ⟨[], [], [], [], "error: grammar is not LL(1), input not analysed"⟩
  | parsed run => some {
      numberColumn := run.steps.zipIdx.map fun (_, i) => i + 1
      stackColumn := run.steps.map Step.stackText
      inputColumn := run.steps.map Step.inputText
      actionColumn := run.steps.map fun s => s.action.text
      verdict := run.report.message }

def report? : Answer → Option Report
  | parsed run => some run.report
  | _ => .none

def records : Answer → List Record
  | parsed run => Journal.rejection run
  | _ => []

end Answer

structure Session where
  source : Source
  study : Option Study
  answer : Answer
deriving DecidableEq

namespace Session

def new (source : Source) : Session := ⟨source, none, .none⟩

/-- Replaces the lines; they are not read. -/
def withSource (s : Session) (source : Source) : Session := { s with source := source }

/-- The study that the lines lead to, with what it reports. -/
def reportRead (s : Session) : Reported Failure Study := do
  let g ← Grammar.reported s.source.read
  g.reportStudy.mapError .analysis

/-- Reads the lines and studies their grammar. -/
def read (s : Session) : Except Failure Session :=
  s.reportRead.outcome.map fun study => { s with study := some study }

/-- The session's grammar was read and is LL(1). -/
def isLL1 (s : Session) : Bool := s.study.any Study.isLL1

def solve (s : Session) (text : Text) : Session :=
  match s.study with
  | some study =>
    if study.isLL1 then { s with answer := .parsed (study.parse text) }
    else { s with answer := .refused }
  | none => { s with answer := .refused }

end Session

end Predictive
