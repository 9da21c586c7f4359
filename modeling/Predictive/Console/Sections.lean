import Predictive.Study
import Predictive.Machine.Report
import Predictive.Tree.Layout

/-!
# What the console program prints

The analysis of a grammar - FIRST and FOLLOW, the table, the conflicts -
and, for each text, its trace and its tree or the place where it was
rejected. Each row is printed by itself; a heading stands below an empty
line.
-/

namespace Predictive

namespace Console

/-! ## The analysis -/

def setLines (s : Study) : List Text :=
  ("\nFIRST Sets:" : Text) :: s.first.sets.lines "FIRST" ++
    ("\nFOLLOW Sets:" : Text) :: s.follow.sets.lines "FOLLOW" ++
    [("\nLL(1) PARSING TABLE\n" : Text)]

def conditionLines (s : Study) : List Text :=
  ("\n--- Checking LL(1) Conditions ---" : Text) ::
    s.conflicts.map (fun c => ("  Conflict: " : Text) ++ c.message) ++
    if s.isLL1 then [("  All LL(1) conditions satisfied." : Text)] else []

/-! ## Parses -/

def parseHeading (text : Text) : Text := "\n--- Parsing: \"" ++ text ++ "\" ---\n"

/-- A row of the trace: the stack and the input in fields of their own,
wider than which they push the rest to the right. -/
def traceLine (stack input action : Text) : Text :=
  Text.padRight 30 stack ++ " " ++ Text.padRight 20 input ++ " " ++ action

def outcomeLines (r : Report) : List Text :=
  match r.tree with
  | some tree => ["\nString ACCEPTED!", "\n--- Parse Tree ---\n", tree.layoutText]
  | none =>
    ["\nString REJECTED! (" ++ r.reason.getD "None" ++ " at step " ++ Text.ofNat r.step ++
      ", input position " ++ Text.ofNat r.position ++ ")"]

/-- The rows below the heading of a parse. -/
def parseLines (run : Run) : List Text :=
  traceLine "Stack" "Input" "Action" :: List.replicate 70 '-' ::
    run.steps.map (fun s => traceLine s.stackText s.inputText s.action.text) ++
    outcomeLines run.report

end Console

end Predictive
