import Mathlib.Data.List.Perm.Basic
import Predictive.Proofs.Grammar.Printed
import Predictive.Proofs.Table.Cells
import Predictive.Table.Listing
import Predictive.Table.Sheet

/-!
# Views of a table lose no cell

The table of a grammar is tidy (`ParsingTable.IsTidy`): its rows and its
columns are distinct and single code points, no cell lies outside them,
and the production in a cell belongs to the row.

Of a tidy table the sheet has a text for each cell at its place, and
empty texts elsewhere (`Sheets.Lawful.exists_sheet`). That the change of
labels drops nothing is `inside`, and that the places filled are those of
the cells, no more and no fewer, follows because a production is never
written as the empty text (`Sheets.Shows.filled_perm`).

In the flat form two cells would share an entry if they had one name. A
name of three code points tells row and column apart even when one of
them is the bar (`Place.ofName?`), so every cell has its own entry and
can be read back from it (`IsTidy.mapM_cellOf?`).
-/

namespace Predictive

variable {t : ParsingTable} {place : Place} {A a : Symbol}

theorem Production.text_ne_nil (p : Production) : p.text ≠ [] := by
  intro h
  have harrow : ("->" : Text) = [] :=
    (List.append_eq_nil_iff.1 (List.append_eq_nil_iff.1 h).1).2
  cases harrow

namespace ParsingTable

/-! ## Tidy tables -/

/-- Rows and columns are distinct single code points, every cell lies in
one of each, and the production it holds is one of its row and spelled
with single code points. -/
structure IsTidy (t : ParsingTable) : Prop where
  rows : t.rows.Nodup
  columns : t.columns.Nodup
  inside : ∀ place ∈ t.keys, place.row ∈ t.rows ∧ place.column ∈ t.columns
  row_single : ∀ A ∈ t.rows, ∃ c, A = .single c
  column_single : ∀ a ∈ t.columns, ∃ c, a = .single c
  lhs_eq : ∀ entry ∈ t.entries, entry.2.lhs = entry.1.row
  rhs_single : ∀ entry ∈ t.entries, ∀ s ∈ entry.2.rhs, ∃ c, s = .single c

theorem labels_stamp (t : ParsingTable) (p : Production) (columns : List Symbol) :
    (t.stamp p columns).rows = t.rows ∧ (t.stamp p columns).columns = t.columns := by
  induction columns generalizing t with
  | nil => exact ⟨rfl, rfl⟩
  | cons a columns ih => exact ih (t.overwrite p.lhs a p)

theorem labels_stampAll (f n : Symbol → SymbolSet) (t : ParsingTable) (ps : List Production) :
    (t.stampAll f n ps).rows = t.rows ∧ (t.stampAll f n ps).columns = t.columns := by
  induction ps generalizing t with
  | nil => exact ⟨rfl, rfl⟩
  | cons p ps ih =>
    obtain ⟨hrows, hcolumns⟩ := ih (t.stamp p (p.columns f n))
    obtain ⟨hrows', hcolumns'⟩ := t.labels_stamp p (p.columns f n)
    exact ⟨hrows.trans hrows', hcolumns.trans hcolumns'⟩

/-- The productions that count, as a map. -/
def winners (t : ParsingTable) : OrderedMap Place Production := t.cells.map fun _ c => c.winner

theorem map_fst_entries (t : ParsingTable) : t.entries.map Prod.fst = t.keys :=
  OrderedMap.keys_map (fun _ (c : Cell) => c.winner) t.cells

theorem get?_winners (t : ParsingTable) (place : Place) :
    t.winners.get? place = t.get? place.row place.column :=
  OrderedMap.get?_map (fun _ (c : Cell) => c.winner) t.cells place

theorem mem_entries {p : Production} : (place, p) ∈ t.entries ↔
    t.get? place.row place.column = some p := by
  rw [← t.get?_winners place]
  exact (OrderedMap.get?_eq_some (m := t.winners)).symm

/-- The text that a view has for a cell, and the empty one where there
is none. -/
def textAt (t : ParsingTable) (place : Place) : Text :=
  ((t.get? place.row place.column).map Production.text).getD []

theorem textAt_ne_nil_iff : t.textAt place ≠ [] ↔ place ∈ t.keys := by
  rw [keys, ← OrderedMap.contains_iff, OrderedMap.contains, textAt, get?]
  cases t.cells.get? ⟨place.row, place.column⟩ with
  | none => exact iff_of_false (fun h => h rfl) (fun h => by cases h)
  | some c => exact iff_of_true c.winner.text_ne_nil rfl

theorem keys_eq_nil (h : t.size = 0) : t.keys = [] :=
  List.map_eq_nil_iff.2 (List.length_eq_zero_iff.1 h)

theorem nodup_texts (t : ParsingTable) :
    ((t.entries.map fun (place, p) => (place, p.text)).map Prod.fst).Nodup := by
  rw [List.map_map]
  exact t.map_fst_entries ▸ t.cells.nodup_keys

theorem lookup_texts (t : ParsingTable) (A a : Symbol) :
    (t.entries.map fun (place, p) => (place, p.text)).lookup ⟨A, a⟩ =
      (t.get? A a).map Production.text := by
  rw [← t.get?_winners ⟨A, a⟩]
  exact OrderedMap.get?_map (fun _ p => p.text) t.winners ⟨A, a⟩

end ParsingTable

/-! ## The sheet -/

namespace Sheets

variable {S : Sheets} {sheet : S.Sheet}

/-- The sheet has the rows and columns of the table, and under them the
texts of its cells. -/
structure Shows (S : Sheets) (sheet : S.Sheet) (t : ParsingTable) : Prop where
  index : S.index sheet = t.rows
  columns : S.columns sheet = t.columns
  read : ∀ A ∈ t.rows, ∀ a ∈ t.columns, S.read? sheet A a = some (t.textAt ⟨A, a⟩)

theorem mem_places : place ∈ S.places sheet ↔
    place.row ∈ S.index sheet ∧ place.column ∈ S.columns sheet := by
  obtain ⟨A, a⟩ := place
  simp only [places, List.mem_flatMap, List.mem_map, Place.mk.injEq]
  constructor
  · rintro ⟨B, hB, b, hb, rfl, rfl⟩
    exact ⟨hB, hb⟩
  · rintro ⟨hA, ha⟩
    exact ⟨A, hA, a, ha, rfl, rfl⟩

theorem nodup_places (hrows : (S.index sheet).Nodup) (hcolumns : (S.columns sheet).Nodup) :
    (S.places sheet).Nodup := by
  refine List.nodup_flatMap.2 ⟨fun A _ => hcolumns.map fun a b h => (Place.mk.inj h).2, ?_⟩
  refine hrows.imp fun hne place hA hB => ?_
  obtain ⟨a, -, rfl⟩ := List.mem_map.1 hA
  obtain ⟨b, -, h⟩ := List.mem_map.1 hB
  exact hne (Place.mk.inj h).1.symm

theorem Lawful.exists_sheet (hS : S.Lawful) (hrows : t.rows.Nodup) (hcolumns : t.columns.Nodup) :
    ∃ sheet, t.sheet S = some sheet ∧ S.Shows sheet t := by
  unfold ParsingTable.sheet
  split
  · next hsize =>
    -- there is no cell, so the text looked for is the empty one everywhere
    refine ⟨_, rfl, hS.index_constant .., hS.columns_constant .., fun A hA a ha => ?_⟩
    have hkeys : (⟨A, a⟩ : Place) ∉ t.keys := by
      rw [ParsingTable.keys_eq_nil hsize]
      exact List.not_mem_nil
    rw [hS.read_constant _ _ _ hrows hcolumns A hA a ha,
      not_ne_iff.1 (mt ParsingTable.textAt_ne_nil_iff.1 hkeys)]
  · obtain ⟨pivoted, hpivoted⟩ := hS.exists_pivot _ t.nodup_texts
    obtain ⟨hindex, hheads⟩ := hS.nodup_pivot _ _ hpivoted
    obtain ⟨placed, hplaced⟩ := hS.exists_reindex pivoted t.rows t.columns hindex hheads
    have hi := hS.index_reindex _ _ _ _ hplaced
    have hc := hS.columns_reindex _ _ _ _ hplaced
    have hsheet : (do
        let pivoted ← S.pivot (t.entries.map fun (place, p) => (place, p.text))
        let placed ← S.reindex pivoted t.rows t.columns
        return S.fillMissing placed []) = some (S.fillMissing placed []) := by
      rw [hpivoted, Option.bind_eq_bind, Option.bind_some, hplaced]
      rfl
    refine ⟨_, hsheet, (hS.index_fillMissing ..).trans hi, (hS.columns_fillMissing ..).trans hc,
      fun A hA a ha => ?_⟩
    rw [hS.read_fillMissing placed [] (hi ▸ hrows) (hc ▸ hcolumns) A (hi ▸ hA) a (hc ▸ ha),
      hS.read_reindex _ _ _ _ hplaced hrows hcolumns A hA a ha, hS.read_pivot _ _ hpivoted,
      t.lookup_texts]
    rfl

namespace Shows

theorem textAt_eq (h : S.Shows sheet t) (hA : A ∈ t.rows) (ha : a ∈ t.columns) :
    S.textAt sheet ⟨A, a⟩ = t.textAt ⟨A, a⟩ := by
  rw [textAt, h.read A hA a ha]
  rfl

theorem grid_eq (h : S.Shows sheet t) : S.grid sheet = t.grid := by
  rw [grid, h.index, h.columns, ParsingTable.grid, Grid.mk.injEq]
  refine ⟨rfl, rfl, List.map_congr_left fun A hA => List.map_congr_left fun a ha => ?_⟩
  rw [h.textAt_eq hA ha, ParsingTable.textAt]
  cases t.get? A a <;> rfl

/-- The places filled are those of the cells. -/
theorem filled_perm (h : S.Shows sheet t) (ht : t.IsTidy) : (S.filled sheet).Perm t.keys := by
  have hnodup : (S.filled sheet).Nodup :=
    (nodup_places (h.index ▸ ht.rows) (h.columns ▸ ht.columns)).filter _
  refine (List.perm_ext_iff_of_nodup hnodup t.cells.nodup_keys).2 fun place => ?_
  rw [filled, List.mem_filter, mem_places, h.index, h.columns, decide_eq_true_eq]
  constructor
  · rintro ⟨⟨hrow, hcolumn⟩, htext⟩
    rw [h.textAt_eq hrow hcolumn] at htext
    exact ParsingTable.textAt_ne_nil_iff.1 htext
  · intro hplace
    obtain ⟨hrow, hcolumn⟩ := ht.inside place hplace
    rw [h.textAt_eq hrow hcolumn]
    exact ⟨⟨hrow, hcolumn⟩, ParsingTable.textAt_ne_nil_iff.2 hplace⟩

end Shows

end Sheets

/-! ## The flat form -/

/-- The place with a name: row and column are the first and the last of
three code points. -/
def Place.ofName? : Text → Option Place
  | [A, bar, a] => if bar = '|' then some ⟨.single A, .single a⟩ else none
  | _ => none

/-- The cell behind an entry of the flat form, with its whole
production. -/
def cellOf? (entry : Text × Text) : Option (Place × Production) :=
  (Place.ofName? entry.1).map fun place => (place, ⟨place.row, symbolsOf entry.2⟩)

namespace ParsingTable.IsTidy

theorem ofName?_name (ht : t.IsTidy) (h : place ∈ t.keys) :
    Place.ofName? place.name = some place := by
  obtain ⟨hrow, hcolumn⟩ := ht.inside place h
  obtain ⟨A, a⟩ := place
  obtain ⟨c, rfl⟩ := ht.row_single A hrow
  obtain ⟨d, rfl⟩ := ht.column_single a hcolumn
  rfl

theorem nodup_names (ht : t.IsTidy) : (t.keys.map Place.name).Nodup := by
  refine t.cells.nodup_keys.map_on fun place hplace place' hplace' h => ?_
  have hsame := congrArg Place.ofName? h
  rwa [ht.ofName?_name hplace, ht.ofName?_name hplace', Option.some.injEq] at hsame

/-- Each cell has an entry of its own, in the order of the table. -/
theorem entries_listing (ht : t.IsTidy) :
    t.listing.entries = t.entries.map fun (place, p) => (place.name, p.body) := by
  refine OrderedMap.entries_ofList ?_
  rw [List.map_map]
  have hnames := ht.nodup_names
  rwa [← t.map_fst_entries, List.map_map] at hnames

theorem cellOf?_entry (ht : t.IsTidy) {p : Production} (h : (place, p) ∈ t.entries) :
    cellOf? (place.name, p.body) = some (place, p) := by
  have hplace : place ∈ t.keys := t.map_fst_entries ▸ List.mem_map_of_mem h
  have hlhs : p.lhs = place.row := ht.lhs_eq _ h
  rw [cellOf?, ht.ofName?_name hplace, Option.map_some, Production.body,
    symbolsOf_spell (ht.rhs_single _ h), ← hlhs]

/-- The cells are read back from the flat form. -/
theorem mapM_cellOf? (ht : t.IsTidy) : t.listing.entries.mapM cellOf? = some t.entries := by
  rw [ht.entries_listing]
  have hread : ∀ entry ∈ t.entries, cellOf? (entry.1.name, entry.2.body) = some entry :=
    fun entry h => ht.cellOf?_entry h
  generalize t.entries = entries at hread
  induction entries with
  | nil => rfl
  | cons entry entries ih =>
    obtain ⟨hentry, hentries⟩ := List.forall_mem_cons.1 hread
    rw [List.map_cons, List.mapM_cons, hentry, ih hentries]
    rfl

end ParsingTable.IsTidy

/-! ## The table of a grammar -/

theorem Grammar.WellFormed.terminal_single {g : Grammar} (wf : g.WellFormed)
    (h : a ∈ g.terminals) : ∃ c, a = .single c := by
  obtain ⟨-, p, mem, ha⟩ := Grammar.mem_terminals.1 h
  exact ((wf.normal p mem).single a ha).imp fun _ hc => hc.1

namespace Study.IsOf

variable {g : Grammar} {s : Study} (hs : s.IsOf g) (wf : g.WellFormed)
include hs wf

theorem labels_table :
    s.table.rows = g.nonterminals ∧ s.table.columns = g.terminals ++ [.endMarker] := by
  have htable := Grammar.table_eq wf (fun _ => hs.mem_keys_first) (fun _ => hs.mem_keys_follow wf)
  rw [hs.table, Except.ok.injEq] at htable
  rw [htable]
  exact ParsingTable.labels_stampAll ..

theorem isTidy_table : s.table.IsTidy := by
  obtain ⟨hrows, hcolumns⟩ := hs.labels_table wf
  have hentry : ∀ entry ∈ s.table.entries, entry.2 ∈ g.productions ∧ entry.2.lhs = entry.1.row :=
    fun entry h =>
      have hcell := hs.mem_of_get? wf (ParsingTable.mem_entries.1 h)
      ⟨hcell.1, hcell.2.1⟩
  refine
    { rows := hrows ▸ g.rules.nodup_keys
      columns := ?columns
      inside := ?inside
      row_single := ?row_single
      column_single := ?column_single
      lhs_eq := fun entry h => (hentry entry h).2
      rhs_single := ?rhs_single }
  case columns =>
    have hend : Symbol.endMarker ∉ g.terminals := fun h => wf.endMarker_not_isKnown (Or.inr h)
    rw [hcolumns, ← List.concat_eq_append]
    exact (nodup_eraseDups _).concat hend
  case inside =>
    intro place hplace
    -- a cell has a writer, and FIRST and FOLLOW say at which columns it writes
    obtain ⟨p, hp⟩ := ParsingTable.mem_keys.1 hplace
    obtain ⟨mem, hrow, hcolumn⟩ := (hs.mem_writers wf).1 hp
    rw [hrows, hcolumns, ← hrow, List.mem_append, List.mem_singleton]
    exact ⟨Grammar.lhs_mem_nonterminals mem, (hs.columns_cases wf mem hcolumn).imp_right And.right⟩
  case row_single =>
    intro A hA
    obtain ⟨c, rfl, -⟩ := Symbol.exists_single (wf.head_nonterminal A (hrows ▸ hA))
    exact ⟨c, rfl⟩
  case column_single =>
    intro a ha
    rw [hcolumns, List.mem_append, List.mem_singleton] at ha
    rcases ha with ha | rfl
    · exact wf.terminal_single ha
    · exact ⟨'$', rfl⟩
  case rhs_single =>
    intro entry h s hmem
    exact ((wf.normal _ (hentry entry h).1).single s hmem).imp fun _ hc => hc.1

end Study.IsOf

/-- The views of the table of a loaded grammar lose no cell. The sheet has
the nonterminals as rows and the terminals and the end marker as columns,
all distinct, and there the text of the production that a cell holds and
the empty text where there is no cell; so the places filled are those of
the cells. The flat form has an entry for each cell, in the order of the
table, and each cell can be read back from its entry with its whole
production. -/
theorem Grammar.views_lossless {pairs : List (Text × List Text)} {g : Grammar}
    (h : load pairs = .ok g) {S : Sheets} (hS : S.Lawful) :
    ∃ s, g.study = .ok s ∧
      (∃ sheet, s.table.sheet S = some sheet ∧
        S.index sheet = g.nonterminals ∧ S.columns sheet = g.terminals ++ [.endMarker] ∧
        (S.index sheet).Nodup ∧ (S.columns sheet).Nodup ∧
        (∀ A ∈ g.nonterminals, ∀ a ∈ g.terminals ++ [.endMarker],
          S.read? sheet A a = some (((s.table.get? A a).map Production.text).getD [])) ∧
        (S.filled sheet).Perm s.table.keys ∧ (S.filled sheet).length = s.table.size ∧
        S.grid sheet = s.table.grid) ∧
      s.table.listing.entries = s.table.entries.map (fun (place, p) => (place.name, p.body)) ∧
      s.table.listing.size = s.table.size ∧
      s.table.listing.entries.mapM cellOf? = some s.table.entries := by
  have wf := wellFormed_of_load h
  obtain ⟨s, hs, hof⟩ := exists_study wf
  obtain ⟨hrows, hcolumns⟩ := hof.labels_table wf
  have htidy := hof.isTidy_table wf
  obtain ⟨sheet, hsheet, hshows⟩ := hS.exists_sheet htidy.rows htidy.columns
  have hfilled := hshows.filled_perm htidy
  have hentries := htidy.entries_listing
  refine ⟨s, hs, ⟨sheet, hsheet, hshows.index.trans hrows, hshows.columns.trans hcolumns,
    hshows.index ▸ htidy.rows, hshows.columns ▸ htidy.columns, fun A hA a ha => ?_, hfilled,
    hfilled.length_eq.trans (List.length_map ..), hshows.grid_eq⟩, hentries, ?_,
    htidy.mapM_cellOf?⟩
  · exact hshows.read A (hrows ▸ hA) a (hcolumns ▸ ha)
  · rw [OrderedMap.size, hentries, List.length_map]
    exact List.length_map ..

/-- A table with the bar in a column and a row without cells, and a table
without cells. -/
theorem Grammar.views_lossless_of_bar :
    Sheets.plain.Lawful ∧
    (∃ g s, load [("S", ["|S", "a"]), ("A", ["ε"])] = .ok g ∧ g.study = .ok s ∧
      (∃ sheet, s.table.sheet .plain = some sheet ∧
        Sheets.plain.read? sheet (.single 'S') (.single '|') = some "S->|S" ∧
        Sheets.plain.read? sheet (.single 'A') .endMarker = some []) ∧
      s.table.listing.entries = [(("S||" : Text), ("|S" : Text)), ("S|a", "a")] ∧
      s.table.listing.entries.mapM cellOf? = some s.table.entries) ∧
    ∃ g s sheet, load [("S", ["S"])] = .ok g ∧ g.study = .ok s ∧
      s.table.sheet .plain = some sheet ∧ Sheets.plain.filled sheet = [] := by
  refine ⟨Sheets.lawful_plain, ?_, ?_⟩
  · obtain ⟨g, h⟩ : ∃ g, load [("S", ["|S", "a"]), ("A", ["ε"])] = .ok g := ⟨_, rfl⟩
    obtain ⟨s, hs, ⟨sheet, hsheet, -, -, -, -, hread, -⟩, -, -, hcells⟩ :=
      views_lossless h Sheets.lawful_plain
    have hlabels : (g.nonterminals, g.terminals) =
        ([.single 'S', .single 'A'], [.single '|', .single 'a']) := by
      apply computed_eq (f := fun g _ => (g.nonterminals, g.terminals)) h hs
      decide +kernel
    have hcell : (s.table.get? (.single 'S') (.single '|'),
        s.table.get? (.single 'A') .endMarker) =
        (some ⟨.single 'S', symbolsOf "|S"⟩, none) := by
      apply computed_eq (f := fun _ s => (s.table.get? (.single 'S') (.single '|'),
        s.table.get? (.single 'A') .endMarker)) h hs
      decide +kernel
    have hlisting : s.table.listing.entries = [(("S||" : Text), ("|S" : Text)), ("S|a", "a")] := by
      apply computed_eq (f := fun _ s => s.table.listing.entries) h hs
      decide +kernel
    obtain ⟨hrows, hcolumns⟩ := Prod.mk.inj hlabels
    obtain ⟨hbar, hblank⟩ := Prod.mk.inj hcell
    have hS := hread (.single 'S') (by simp [hrows]) (.single '|') (by simp [hcolumns])
    have hA := hread (.single 'A') (by simp [hrows]) .endMarker (by simp)
    rw [hbar] at hS
    rw [hblank] at hA
    exact ⟨g, s, h, hs, ⟨sheet, hsheet, hS, hA⟩, hlisting, hcells⟩
  · obtain ⟨g, h⟩ : ∃ g, load [("S", ["S"])] = .ok g := ⟨_, rfl⟩
    obtain ⟨s, hs, ⟨sheet, hsheet, -, -, -, -, -, -, hfilled, -⟩, -⟩ :=
      views_lossless h Sheets.lawful_plain
    have hsize : s.table.size = 0 := by
      apply computed_eq (f := fun _ s => s.table.size) h hs
      decide +kernel
    exact ⟨g, s, sheet, h, hs, hsheet, List.length_eq_zero_iff.1 (hfilled.trans hsize)⟩

end Predictive
