import Predictive.Service.Settings
import Predictive.Service.Shown

/-!
# Analyses for requests

What the service makes of the content of a request: the production
lines and the input in it are checked - first what they are, then how
many - and the grammar is studied. A content is refused with the reason
when it is not what is wanted or its grammar is unusable, and without
one when a bound is no bound.
-/

namespace Predictive

namespace Service

/-! ## Content -/

inductive Refusal where
  /-- The request asks for something that is not to be had. -/
  | unfit (message : Text)
  /-- The service cannot do its work. -/
  | failed
deriving DecidableEq

/-- A count that must keep within a bound. -/
def checkBound (bound : Bound) (count : Nat) (message : Text) : Except Refusal Unit :=
  match bound.isExceededBy? count with
  | none => .error .failed
  | some true => .error (.unfit message)
  | some false => .ok ()

/-- The production lines that a content names: the elements of an array
of texts, or the lines of a text. -/
def linesOf? (content : JsonValue) : Option (List Text) :=
  match content.member? "inpProductions" with
  | some (.string t) => some (Text.lines t)
  | some (.array l) => l.mapM JsonValue.string?
  | _ => none

/-- The production lines of a content, as many as are allowed. -/
def readLines (s : Settings) (content : JsonValue) : Except Refusal (List Text) := do
  match linesOf? content with
  | none => throw (.unfit "'inpProductions' must be a list of production strings")
  | some lines =>
    checkBound s.maxProductions lines.length
      ("at most " ++ s.maxProductions.text ++ " productions are accepted")
    return lines

/-- The input of a content, as long as is allowed. -/
def readInput (s : Settings) (content : JsonValue) : Except Refusal Text := do
  match content.member? "inpStr" with
  | some (.string t) =>
    checkBound s.maxInputLength t.length "input string is too long"
    return t
  | _ => throw (.unfit "'inpStr' must be a string")

/-! ## Analyses -/

def refusalOf : Failure → Refusal
  | .grammar e => .unfit e.message
  | .analysis _ => .failed

def studyOf (lines : List Text) : Reported Refusal Study :=
  (Session.new (.lines lines)).reportRead.mapError refusalOf

def analyse (s : Settings) (content : JsonValue) : Reported Refusal JsonValue := do
  let lines ← Reported.silent (readLines s content)
  let study ← studyOf lines
  return studyJson study

def analyseInput (s : Settings) (content : JsonValue) : Reported Refusal JsonValue := do
  let lines ← Reported.silent (readLines s content)
  let input ← Reported.silent (readInput s content)
  let study ← studyOf lines
  let answer := (Session.solve ⟨.lines lines, some study, .none⟩ input).answer
  Reported.noting (.ok (answerJson answer)) fun _ => answer.records

end Service

end Predictive
