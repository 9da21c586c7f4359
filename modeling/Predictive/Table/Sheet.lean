import Predictive.SymbolSet
import Predictive.Table.Grid

/-!
# The table as a sheet

A table is laid out by means of a library of sheets, rectangles of texts
with labelled rows and columns. Of the library no more is known than the
names of its operations (`Sheets`) and the laws they come with
(`Sheets.Lawful`): where each text stands, and when an operation gives a
sheet at all.

A sheet is first labelled by what occurs in the cells. It gets the rows
and columns of the table afterwards, where what has no place under the
new labels is dropped and what is missing becomes the empty text. A table
without cells gets a sheet of empty texts at once.
-/

namespace Predictive

/-- The operations of a library of sheets. -/
structure Sheets where
  Sheet : Type
  index : Sheet → List Symbol
  columns : Sheet → List Symbol
  /-- The text under two labels, where there is one. -/
  read? : Sheet → Symbol → Symbol → Option Text
  /-- The sheet with the given labels and one text everywhere. -/
  constant : Text → List Symbol → List Symbol → Sheet
  /-- The sheet with each text at its place, labelled by the rows and the
  columns of the places. -/
  pivot : List (Place × Text) → Option Sheet
  /-- What a sheet holds under the given labels. -/
  reindex : Sheet → List Symbol → List Symbol → Option Sheet
  /-- The sheet with a text wherever one is missing. -/
  fillMissing : Sheet → Text → Sheet

namespace Sheets

/-- The laws of the operations, for labels that are distinct: a pivot
needs distinct places and a change of labels distinct old ones, and
every text stands under its two labels. -/
structure Lawful (S : Sheets) : Prop where
  index_constant : ∀ x rows columns, S.index (S.constant x rows columns) = rows
  columns_constant : ∀ x rows columns, S.columns (S.constant x rows columns) = columns
  read_constant : ∀ x rows columns, rows.Nodup → columns.Nodup → ∀ A ∈ rows, ∀ a ∈ columns,
    S.read? (S.constant x rows columns) A a = some x
  exists_pivot : ∀ entries, (entries.map Prod.fst).Nodup → ∃ sheet, S.pivot entries = some sheet
  nodup_pivot : ∀ entries sheet, S.pivot entries = some sheet →
    (S.index sheet).Nodup ∧ (S.columns sheet).Nodup
  read_pivot : ∀ entries sheet, S.pivot entries = some sheet → ∀ A a,
    S.read? sheet A a = entries.lookup ⟨A, a⟩
  exists_reindex : ∀ sheet rows columns, (S.index sheet).Nodup → (S.columns sheet).Nodup →
    ∃ sheet', S.reindex sheet rows columns = some sheet'
  index_reindex : ∀ sheet rows columns sheet', S.reindex sheet rows columns = some sheet' →
    S.index sheet' = rows
  columns_reindex : ∀ sheet rows columns sheet', S.reindex sheet rows columns = some sheet' →
    S.columns sheet' = columns
  read_reindex : ∀ sheet rows columns sheet', S.reindex sheet rows columns = some sheet' →
    rows.Nodup → columns.Nodup → ∀ A ∈ rows, ∀ a ∈ columns,
    S.read? sheet' A a = S.read? sheet A a
  index_fillMissing : ∀ sheet x, S.index (S.fillMissing sheet x) = S.index sheet
  columns_fillMissing : ∀ sheet x, S.columns (S.fillMissing sheet x) = S.columns sheet
  read_fillMissing : ∀ sheet x, (S.index sheet).Nodup → (S.columns sheet).Nodup →
    ∀ A ∈ S.index sheet, ∀ a ∈ S.columns sheet,
    S.read? (S.fillMissing sheet x) A a = some ((S.read? sheet A a).getD x)

/-! ## Sheets as functions -/

/-- A sheet that has its texts as a function of the labels. -/
structure Plain where
  index : List Symbol
  columns : List Symbol
  text? : Symbol → Symbol → Option Text

namespace Plain

def read? (sheet : Plain) (A a : Symbol) : Option Text :=
  if A ∈ sheet.index ∧ a ∈ sheet.columns then sheet.text? A a else none

/-- The labels are listed in increasing order. -/
def ofEntries (entries : List (Place × Text)) : Plain where
  index := (SymbolSet.ofList (entries.map (·.1.row))).toList
  columns := (SymbolSet.ofList (entries.map (·.1.column))).toList
  text? A a := entries.lookup ⟨A, a⟩

theorem read?_ofEntries {entries : List (Place × Text)} (h : (entries.map Prod.fst).Nodup)
    (A a : Symbol) : (ofEntries entries).read? A a = entries.lookup ⟨A, a⟩ := by
  rw [read?]
  split
  · rfl
  · next hlabels =>
    cases htext : entries.lookup ⟨A, a⟩ with
    | none => rfl
    | some x =>
      have hmem := (OrderedMap.lookup_eq_some h).1 htext
      exact absurd ⟨SymbolSet.mem_ofList.2 (List.mem_map.2 ⟨_, hmem, rfl⟩),
        SymbolSet.mem_ofList.2 (List.mem_map.2 ⟨_, hmem, rfl⟩)⟩ hlabels

end Plain

/-- The library in which a sheet is a function of its labels. -/
def plain : Sheets where
  Sheet := Plain
  index := Plain.index
  columns := Plain.columns
  read? := Plain.read?
  constant x rows columns := ⟨rows, columns, fun _ _ => some x⟩
  pivot entries := if (entries.map Prod.fst).Nodup then some (.ofEntries entries) else none
  reindex sheet rows columns :=
    if sheet.index.Nodup ∧ sheet.columns.Nodup then some ⟨rows, columns, sheet.read?⟩ else none
  fillMissing sheet x :=
    ⟨sheet.index, sheet.columns, fun A a => some ((sheet.read? A a).getD x)⟩

theorem lawful_plain : plain.Lawful where
  index_constant _ _ _ := rfl
  columns_constant _ _ _ := rfl
  read_constant _ _ _ _ _ _ hA _ ha := if_pos ⟨hA, ha⟩
  exists_pivot _ h := ⟨_, if_pos h⟩
  nodup_pivot entries sheet h := by
    obtain ⟨-, ⟨⟩⟩ := Option.ite_none_right_eq_some.1 h
    exact ⟨SymbolSet.nodup _, SymbolSet.nodup _⟩
  read_pivot entries sheet h A a := by
    obtain ⟨hnodup, ⟨⟩⟩ := Option.ite_none_right_eq_some.1 h
    exact Plain.read?_ofEntries hnodup A a
  exists_reindex _ _ _ hindex hcolumns := ⟨_, if_pos ⟨hindex, hcolumns⟩⟩
  index_reindex _ _ _ _ h := by
    obtain ⟨-, ⟨⟩⟩ := Option.ite_none_right_eq_some.1 h
    rfl
  columns_reindex _ _ _ _ h := by
    obtain ⟨-, ⟨⟩⟩ := Option.ite_none_right_eq_some.1 h
    rfl
  read_reindex _ _ _ _ h _ _ A hA a ha := by
    obtain ⟨-, ⟨⟩⟩ := Option.ite_none_right_eq_some.1 h
    exact if_pos ⟨hA, ha⟩
  index_fillMissing _ _ := rfl
  columns_fillMissing _ _ := rfl
  read_fillMissing _ _ _ _ _ hA _ ha := if_pos ⟨hA, ha⟩

/-! ## What stands on a sheet -/

variable (S : Sheets)

/-- The places of a sheet, row by row. -/
def places (sheet : S.Sheet) : List Place :=
  (S.index sheet).flatMap fun A => (S.columns sheet).map (Place.mk A)

/-- The text at a place, empty where it is missing. -/
def textAt (sheet : S.Sheet) (place : Place) : Text :=
  (S.read? sheet place.row place.column).getD []

/-- The places of a sheet at which a text stands that is not empty. -/
def filled (sheet : S.Sheet) : List Place :=
  (S.places sheet).filter fun place => S.textAt sheet place ≠ []

/-- The texts of a sheet with those of its labels. -/
def grid (sheet : S.Sheet) : Grid where
  index := (S.index sheet).map Symbol.text
  columns := (S.columns sheet).map Symbol.text
  rows := (S.index sheet).map fun A => (S.columns sheet).map fun a => S.textAt sheet ⟨A, a⟩

end Sheets

/-- The sheet of a table. -/
def ParsingTable.sheet (S : Sheets) (t : ParsingTable) : Option S.Sheet :=
  if t.size = 0 then some (S.constant [] t.rows t.columns)
  else do
    let pivoted ← S.pivot (t.entries.map fun (place, p) => (place, p.text))
    let placed ← S.reindex pivoted t.rows t.columns
    return S.fillMissing placed []

end Predictive
