import Predictive.Sets.Follow
import Predictive.Table.Basic

/-!
# Filling the parsing table

Each production is written into the row of its left-hand side, under
the terminals that call for it (`predicted`): a production for the
empty word under what can follow its left-hand side, any other under
what its first symbol can begin with. Nothing behind the first symbol
is looked at, also when that symbol can vanish. Productions are written
in order, and the columns of one production in increasing order.
-/

namespace Predictive

/-- The columns that call for a production. -/
def Production.predicted (first follow : SetMap) (p : Production) :
    Except AnalysisError (List Symbol) :=
  if p.isEpsilon then (follow.require p.lhs).map SymbolSet.toList
  else match p.rhs with
    | [] => .error (.emptyBody p.lhs)
    | head :: _ =>
      if head.isNonterminal then
        (first.require head).map fun S => (S.erase .epsilon).toList
      else .ok [head]

namespace ParsingTable

/-- Writes each production under the columns that call for it. -/
def fill (first follow : SetMap) (strict : Bool) (t : ParsingTable) :
    List Production → Except AnalysisError ParsingTable
  | [] => .ok t
  | p :: rest => do
    let columns ← p.predicted first follow
    let t ← t.writeAll p.lhs p strict columns
    t.fill first follow strict rest

end ParsingTable

def Grammar.table (g : Grammar) (first follow : SetMap) (strict : Bool) :
    Except AnalysisError ParsingTable :=
  (ParsingTable.blank g.nonterminals g.terminals).fill first follow strict g.productions

end Predictive
