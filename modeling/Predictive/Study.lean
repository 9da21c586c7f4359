import Predictive.Conflict.Basic
import Predictive.Machine.Basic
import Predictive.Table.Build

/-!
# Studies

All that is known about a grammar before anything is parsed with it:
FIRST, FOLLOW, its conflicts and its parsing table. The table is filled
also for a grammar with conflicts; the later production wins a cell,
and what was written before it stays on record.
-/

namespace Predictive

/-- The analysis of a grammar. -/
structure Study where
  grammar : Grammar
  first : Saturation
  follow : Saturation
  conflicts : List Conflict
  table : ParsingTable
deriving DecidableEq

namespace Study

def isLL1 (s : Study) : Bool := s.conflicts.isEmpty

end Study

def Grammar.study (g : Grammar) : Except AnalysisError Study := do
  let first := g.first ∅
  let follow ← g.follow first.sets ∅
  let conflicts ← g.conflicts first.sets follow.sets
  let table ← g.table first.sets follow.sets false
  return ⟨g, first, follow, conflicts, table⟩

/-- The run over a text with the table of a studied grammar. -/
def Study.parse (s : Study) (text : Text) : Run := s.table.parse s.grammar.start text

end Predictive
