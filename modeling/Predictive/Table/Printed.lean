import Predictive.Table.Sheet

/-!
# Sheets as texts

A library of sheets that also writes them. Of the text of a sheet no more
is known than what it is made of: beside the labels and the texts that
stand on the sheet it holds characters alone, such as the blanks between
columns (`PrintedSheets.Lawful`). Where each column begins, what is done
with a label that would break its line, and how an empty sheet is told
of, is up to the library.
-/

namespace Predictive

/-- The operations of a library of sheets, and the text of a sheet. -/
structure PrintedSheets extends Sheets where
  text : Sheet → Text

namespace PrintedSheets

/-- The laws of the operations, and that the text of a sheet is made of
what stands on it and of characters. -/
structure Lawful (L : PrintedSheets) : Prop extends L.toSheets.Lawful where
  mem_text : ∀ sheet, ∀ c ∈ L.text sheet,
    (∃ x : Char, c = x) ∨ (∃ A ∈ L.index sheet, c ∈ A.text) ∨
      (∃ a ∈ L.columns sheet, c ∈ a.text) ∨
      ∃ place ∈ L.places sheet, c ∈ L.textAt sheet place

/-- The library in which a sheet is a function of its labels and is
written as a grid. -/
def plain : PrintedSheets where
  toSheets := .plain
  text sheet := (Sheets.plain.grid sheet).text

end PrintedSheets

end Predictive
