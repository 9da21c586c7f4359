import Predictive.Table.Basic

/-!
# The table as a list

The flat form of a table: each cell under the name of its row and
column with a bar between them, holding the right-hand side of its
production. Two cells with one name share an entry, which then holds
the later cell.
-/

namespace Predictive

/-- The name of a cell in the flat form. -/
def Place.name (place : Place) : Text := place.row.text ++ "|" ++ place.column.text

def ParsingTable.listing (t : ParsingTable) : OrderedMap Text Text :=
  .ofList (t.entries.map fun (place, p) => (place.name, p.body))

end Predictive
