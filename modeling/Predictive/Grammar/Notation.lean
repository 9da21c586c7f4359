import Predictive.Grammar.Load

/-!
# Grammars from lines

A production line has a left-hand side, an arrow and alternatives:
`A->x|y`, or `A=x/y`. The character between alternatives goes with the
arrow, so a slash can be a terminal after `->` and a bar after `=`; a
line with both arrows is cut at the first `->`. Empty lines and lines
that begin with a number sign are skipped.
-/

namespace Predictive

namespace Grammar

/-- The left-hand side of a line, without blanks, and the alternatives
as they stand. -/
def readLine (line : Text) : Except GrammarError (Text × List Text) :=
  let withHead (left : Text) (alternatives : List Text) :
      Except GrammarError (Text × List Text) :=
    if (Text.unblank left).isEmpty then .error (.emptyHead line)
    else .ok (Text.unblank left, alternatives)
  match Text.cutAt? "->" line with
  | some (left, right) => withHead left (right.splitOn '|')
  | none =>
    match Text.cutAt? "=" line with
    | some (left, right) => withHead left (right.splitOn '/')
    | none => .error (.noArrow line)

/-- A stripped line that holds a production: it is not empty and no
comment. -/
def isProductionLine (line : Text) : Bool :=
  match line with
  | [] => false
  | c :: _ => c != '#'

/-- The lines of a source that hold productions, without the blanks at
their ends. -/
def productionLines (source : List Text) : List Text :=
  (source.map Text.strip).filter isProductionLine

def readLines : List Text → Except GrammarError (List (Text × List Text))
  | [] => .ok []
  | line :: rest => do
    let pair ← readLine line
    let pairs ← readLines rest
    return pair :: pairs

def ofLines (source : List Text) : Except GrammarError Grammar := do
  load (← readLines (productionLines source))

/-- The grammar of a text with one production a line. -/
def ofText (source : Text) : Except GrammarError Grammar := ofLines (Text.lines source)

end Grammar

end Predictive
