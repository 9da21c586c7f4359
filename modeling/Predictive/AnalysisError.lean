import Predictive.Production
import Predictive.Text.Quoted

/-!
# Failed analyses

What can stop the analysis of a grammar that was put together by hand:
a nonterminal without a set, a right-hand side without a first symbol,
and, when the table is built strictly, two productions for one cell. A
grammar that was read never meets the first two.
-/

namespace Predictive

/-- Why an analysis stopped. -/
inductive AnalysisError where
  | missingSet (symbol : Symbol)
  | emptyBody (head : Symbol)
  /-- A cell of the table is claimed by a second production. -/
  | contested (row column : Symbol) (existing production : Production)
deriving DecidableEq

def AnalysisError.message : AnalysisError → Text
  | missingSet symbol => Text.quoted symbol.text
  | emptyBody _ => "tuple index out of range"
  | contested row column existing production =>
    "table cell (" ++ row.text ++ ", " ++ column.text ++ ") claimed by both " ++ existing.text ++
      " and " ++ production.text

end Predictive
