import Predictive.Proofs.Table.Views
import Predictive.Proofs.Text.Encoder
import Predictive.Table.Printed

/-!
# The text of a table can be encoded

An encoder that takes the labels and the texts on a sheet takes the text
of the sheet (`PrintedSheets.Lawful.takes_text`). A grid is an example of
such a text: it pads, joins and escapes, and leaves blanks out, which adds
nothing but characters (`Grid.takes_text`, `PrintedSheets.lawful_plain`).
-/

namespace Predictive

variable {e : Encoder}

/-! ## Grids -/

namespace Grid

theorem takes_oneLine {t : Text} (h : e.Takes t) : e.Takes (oneLine t) := by
  refine Encoder.takes_flatMap.2 fun c hc => ?_
  have hself : e.Takes [c] := Encoder.takes_cons.2 ⟨h c hc, Encoder.takes_nil⟩
  split_ifs
  · exact Encoder.takes_ofString _
  · exact Encoder.takes_ofString _
  · exact Encoder.takes_ofString _
  · exact hself

theorem takes_trimFront {labels : List Text} (h : ∀ t ∈ labels, e.Takes t) :
    ∀ t ∈ trimFront labels, e.Takes t :=
  List.forall_mem_map.2 fun t ht => (h t ht).mono (List.drop_subset _ t)

theorem takes_lineOf {labelWidth : Nat} {label : Text} {widths : List Nat} {fields : List Text}
    (hlabel : e.Takes label) (hfields : ∀ t ∈ fields, e.Takes t) :
    e.Takes (lineOf labelWidth label widths fields) := by
  refine Encoder.takes_append.2 ⟨Encoder.takes_padRight.2 hlabel, Encoder.takes_flatMap.2 ?_⟩
  rintro ⟨width, field⟩ hmem
  exact Encoder.takes_cons.2
    ⟨e.takes_char ' ', Encoder.takes_padLeft.2 (hfields _ (List.of_mem_zip hmem).2)⟩

theorem takes_headingsText {columns : List Text} (h : ∀ t ∈ columns, e.Takes t) :
    e.Takes (headingsText columns) := by
  rw [headingsText, Encoder.takes_append, Encoder.takes_append]
  refine ⟨⟨Encoder.takes_ofString _, (Encoder.takes_join (Encoder.takes_ofString _)).2 ?_⟩,
    Encoder.takes_ofString _⟩
  rw [List.forall_mem_append]
  refine ⟨fun t ht => h t (List.mem_of_mem_take ht), ?_⟩
  split
  · exact List.forall_mem_singleton.2 (Encoder.takes_ofString _)
  · exact List.forall_mem_nil _

theorem takes_text {grid : Grid} (hindex : ∀ t ∈ grid.index, e.Takes t)
    (hcolumns : ∀ t ∈ grid.columns, e.Takes t) (hrows : ∀ row ∈ grid.rows, ∀ t ∈ row, e.Takes t) :
    e.Takes grid.text := by
  have honeLine : ∀ ts : List Text, (∀ t ∈ ts, e.Takes t) → ∀ t ∈ ts.map oneLine, e.Takes t :=
    fun ts h => List.forall_mem_map.2 fun t ht => takes_oneLine (h t ht)
  rw [text]
  split
  · exact takes_headingsText hcolumns
  · refine (Encoder.takes_join (Encoder.takes_ofString _)).2 (List.forall_mem_cons.2 ⟨?_, ?_⟩)
    · exact takes_lineOf Encoder.takes_nil (takes_trimFront (honeLine _ hcolumns))
    · rw [List.forall_mem_map]
      rintro ⟨label, fields⟩ hmem
      obtain ⟨hlabel, hfields⟩ := List.of_mem_zip hmem
      obtain ⟨row, hrow, rfl⟩ := List.mem_map.1 hfields
      exact takes_lineOf (takes_trimFront (honeLine _ hindex) label hlabel)
        (honeLine row (hrows row hrow))

end Grid

/-! ## Sheets -/

namespace PrintedSheets

variable {L : PrintedSheets} {sheet : L.Sheet} {t : ParsingTable}

theorem Lawful.takes_text (hL : L.Lawful) (hindex : ∀ A ∈ L.index sheet, e.Takes A.text)
    (hcolumns : ∀ a ∈ L.columns sheet, e.Takes a.text)
    (htexts : ∀ place ∈ L.places sheet, e.Takes (L.textAt sheet place)) :
    e.Takes (L.text sheet) := by
  intro c hc
  rcases hL.mem_text sheet c hc with
    ⟨x, rfl⟩ | ⟨A, hA, hc⟩ | ⟨a, ha, hc⟩ | ⟨place, hplace, hc⟩
  · exact e.takes_char x
  · exact hindex A hA c hc
  · exact hcolumns a ha c hc
  · exact htexts place hplace c hc

/-- The text of the sheet of a table can be encoded when the symbols in
the table can. -/
theorem Lawful.takes_shown (hL : L.Lawful) (h : L.Shows sheet t)
    (hrows : ∀ A ∈ t.rows, e.Takes A.text) (hcolumns : ∀ a ∈ t.columns, e.Takes a.text)
    (hcells : ∀ A a p, t.get? A a = some p → e.Takes p.text) : e.Takes (L.text sheet) := by
  refine hL.takes_text (h.index ▸ hrows) (h.columns ▸ hcolumns) ?_
  rintro ⟨A, a⟩ hplace
  obtain ⟨hA, ha⟩ := Sheets.mem_places.1 hplace
  rw [h.textAt_eq (h.index ▸ hA) (h.columns ▸ ha), ParsingTable.textAt]
  cases hcell : t.get? A a with
  | none => exact Encoder.takes_nil
  | some p => exact hcells A a p hcell

theorem lawful_plain : plain.Lawful where
  toLawful := Sheets.lawful_plain
  mem_text sheet := by
    -- the encoder that takes what the law allows takes the grid
    refine Encoder.takes_ofProperty.1 (Grid.takes_text ?_ ?_ ?_)
    · exact List.forall_mem_map.2 fun A hA => Encoder.takes_ofProperty.2 fun c hc =>
        Or.inr (Or.inl ⟨A, hA, hc⟩)
    · exact List.forall_mem_map.2 fun a ha => Encoder.takes_ofProperty.2 fun c hc =>
        Or.inr (Or.inr (Or.inl ⟨a, ha, hc⟩))
    · refine List.forall_mem_map.2 fun A hA => List.forall_mem_map.2 fun a ha =>
        Encoder.takes_ofProperty.2 fun c hc => ?_
      have hplace : ⟨A, a⟩ ∈ plain.places sheet := Sheets.mem_places.2 ⟨hA, ha⟩
      exact Or.inr (Or.inr (Or.inr ⟨_, hplace, hc⟩))

end PrintedSheets

end Predictive
