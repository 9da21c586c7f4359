import Predictive.Machine.Basic
import Predictive.Tree.Bracketed

/-!
# Reports of runs

What is told about a run: each step as a row of texts, and the outcome
as a flat record. The stack of a row is written from its bottom to its
top, the input from the next symbol to the end marker.
-/

namespace Predictive

/-! ## Wording -/

namespace Rejection

def reason : Rejection → Text
  | unexpectedTerminal .. => "unexpected terminal"
  | noTableEntry .. => "no table entry"
  | stackExhausted => "stack exhausted"

/-- The message for a reason by name, a top and a next symbol. A reason
that is not known is reported as an exhausted stack. -/
def messageFor (reason top lookahead : Text) : Text :=
  if reason = "unexpected terminal" then
    "error: stack top '" ++ top ++ "' does not match input '" ++ lookahead ++ "'"
  else if reason = "no table entry" then
    "error: no table entry for (" ++ top ++ ", " ++ lookahead ++ ")"
  else "error: stack exhausted before the input was accepted"

def message (r : Rejection) : Text :=
  match r with
  | unexpectedTerminal top lookahead => messageFor r.reason top.text lookahead.text
  | noTableEntry top lookahead => messageFor r.reason top.text lookahead.text
  | stackExhausted => messageFor r.reason [] []

end Rejection

def Action.text : Action → Text
  | .accept => "accept"
  | .consume s => "match '" ++ s.text ++ "'"
  | .expand p => "apply " ++ p.text
  | .reject why => why.message

namespace Step

def stackText (s : Step) : Text := spell s.stack.reverse

def inputText (s : Step) : Text := spell (s.unread ++ [.endMarker])

end Step

/-! ## Reports -/

/-- The outcome of a run as a flat record. A field that does not apply
is `none`. -/
structure Report where
  accepted : Bool
  tree : Option Tree
  reason : Option Text
  step : Nat
  position : Nat
  top : Option Text
  lookahead : Option Text
deriving DecidableEq

namespace Report

def message (r : Report) : Text :=
  if r.accepted then "Success!"
  else Rejection.messageFor (r.reason.getD []) (r.top.getD "None") (r.lookahead.getD "None")

def text (r : Report) : Text :=
  if r.accepted then
    "ParseResult(accepted, tree=" ++ (r.tree.map Tree.bracketed).getD "None" ++ ")"
  else
    "ParseResult(rejected: " ++ r.reason.getD "None" ++ " at step " ++ Text.ofNat r.step ++
      ", position " ++ Text.ofNat r.position ++ ")"

end Report

def Ending.reason? : Ending → Option Text
  | .accepted => none
  | .rejected why => some why.reason
  | .unfinished => none

def Run.report (r : Run) : Report where
  accepted := r.isAccepted
  tree := r.tree?
  reason := r.ending.reason?
  step := r.steps.length
  position := r.last.position
  top := r.last.stack.head?.map Symbol.text
  lookahead := if r.last.stack.isEmpty then none else some r.last.lookahead.text

end Predictive
