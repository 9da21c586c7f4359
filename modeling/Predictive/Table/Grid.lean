import Predictive.Table.Basic

/-!
# The table as a grid

The table laid out with a row for each of its nonterminals and a column
for each of its terminals. A cell outside the rows and columns has no
place in the grid, and a place without a cell is blank.

As text, each column is as wide as its heading and one more than its
widest entry, row labels stand at the left and everything else at the
right of its field. Tabs and line ends in a symbol are written as
escapes, so a row is one line. Blanks that all row labels have at their
front are left out.

Without rows the text is the list of the headings, as they are, and of
no more than a hundred of them.
-/

namespace Predictive

/-- A rectangle of texts with labelled rows and columns. -/
structure Grid where
  index : List Text
  columns : List Text
  rows : List (List Text)
deriving DecidableEq

def ParsingTable.grid (t : ParsingTable) : Grid where
  index := t.rows.map Symbol.text
  columns := t.columns.map Symbol.text
  rows := t.rows.map fun A => t.columns.map fun a =>
    match t.get? A a with
    | some p => p.text
    | none => []

namespace Grid

/-- A text with the characters that would break a line written as
escapes. -/
def oneLine (t : Text) : Text :=
  t.flatMap fun (c : CodePoint) =>
    if c = '\t' then "\\t" else if c = '\n' then "\\n" else if c = '\r' then "\\r" else [c]

/-- Labels without the blanks at their front that all of them have, an
equal number from each. -/
def trimFront (labels : List Text) : List Text :=
  let common := ((labels.map fun t => (t.takeWhile Text.isBlank).length).min?).getD 0
  labels.map (·.drop common)

/-- The greatest of a list of lengths, 0 for none. -/
def widest (ts : List Text) : Nat := (ts.map List.length).foldl max 0

/-- The width of a column with the given heading and entries. -/
def columnWidth (heading : Text) (entries : List Text) : Nat :=
  max heading.length (1 + widest entries)

/-- One line of the grid: a label and fields of the given widths. -/
def lineOf (labelWidth : Nat) (label : Text) (widths : List Nat) (fields : List Text) : Text :=
  Text.padRight labelWidth label ++
    (widths.zip fields).flatMap fun (width, field) => (' ' :: Text.padLeft width field : Text)

def widths (headings : List Text) (rows : List (List Text)) : List Nat :=
  headings.zipIdx.map fun (heading, i) => columnWidth heading (rows.map (·.getD i []))

def listedHeadings : Nat := 100

def headingsText (columns : List Text) : Text :=
  let more : List Text := if listedHeadings < columns.length then ["..."] else []
  "Empty DataFrame\nColumns: [" ++ Text.join ", " (columns.take listedHeadings ++ more) ++
    "]\nIndex: []"

def text (grid : Grid) : Text :=
  if grid.index.isEmpty then headingsText grid.columns
  else
    let index := trimFront (grid.index.map oneLine)
    let columns := trimFront (grid.columns.map oneLine)
    let rows := grid.rows.map (·.map oneLine)
    let labelWidth := widest index
    let ws := widths columns rows
    Text.join "\n" (lineOf labelWidth [] ws columns ::
      (index.zip rows).map fun (label, fields) => lineOf labelWidth label ws fields)

end Grid

end Predictive
