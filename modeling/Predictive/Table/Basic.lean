import Predictive.AnalysisError
import Predictive.OrderedMap

/-!
# Parsing tables

A parsing table says which production to apply for a nonterminal on top
of the stack and a terminal at the head of the input. A cell keeps
every distinct production that was ever written to it, in order, and
the one written last, which is the one that counts; a cell with more
than one writer is a collision. Writing strictly refuses a second
writer, and a refused write leaves the table as it was.

`get?_overwrite` and `writers_overwrite` say what a write changes, and
`keys_overwrite` that cells stay in the order in which they were first
written.
-/

namespace Predictive

structure Place where
  row : Symbol
  column : Symbol
deriving DecidableEq

def Place.quoted (place : Place) : Text :=
  "(" ++ Text.quoted place.row.text ++ ", " ++ Text.quoted place.column.text ++ ")"

/-- The productions written to one cell. -/
structure Cell where
  /-- The production written last. -/
  winner : Production
  /-- Every production written, each once, in order. -/
  writers : List Production
  winner_mem : winner ∈ writers
deriving DecidableEq

namespace Cell

def single (p : Production) : Cell := ⟨p, [p], List.mem_singleton_self p⟩

/-- The production that was new to the cell last. -/
def newest (c : Cell) : Production := c.writers.getLast (List.ne_nil_of_mem c.winner_mem)

def write (c : Cell) (p : Production) : Cell :=
  if h : p ∈ c.writers then ⟨p, c.writers, h⟩ else ⟨p, c.writers ++ [p], by simp⟩

end Cell

/-- A parsing table: its rows, its columns, and the cells written so
far. A cell may lie outside the rows and columns. -/
structure ParsingTable where
  rows : List Symbol
  columns : List Symbol
  cells : OrderedMap Place Cell
deriving DecidableEq

namespace ParsingTable

/-- The table without cells for the given symbols; the end marker is
its last column. -/
def blank (nonterminals terminals : List Symbol) : ParsingTable :=
  ⟨nonterminals, terminals ++ [.endMarker], ∅⟩

/-! ## Reading -/

def get? (t : ParsingTable) (A a : Symbol) : Option Production :=
  (t.cells.get? ⟨A, a⟩).map Cell.winner

def writers (t : ParsingTable) (A a : Symbol) : List Production :=
  ((t.cells.get? ⟨A, a⟩).map Cell.writers).getD []

/-- The cells with their productions, in the order in which they were
first written. -/
def entries (t : ParsingTable) : List (Place × Production) :=
  t.cells.entries.map fun (k, c) => (k, c.winner)

def keys (t : ParsingTable) : List Place := t.cells.keys

def size (t : ParsingTable) : Nat := t.cells.size

def collisions (t : ParsingTable) : List (Place × List Production) :=
  (t.cells.entries.filter fun (_, c) => 1 < c.writers.length).map fun (k, c) => (k, c.writers)

/-- The two tables have the same cells with the same writers, in
whatever order, and whatever rows and columns they declare. -/
def agrees (t u : ParsingTable) : Bool := t.cells.sameEntries u.cells

def text (t : ParsingTable) : Text :=
  "ParsingTable(" ++
    Text.join ", " (t.entries.map fun (place, p) =>
      "[" ++ place.row.text ++ "," ++ place.column.text ++ "]=" ++ p.text) ++ ")"

/-! ## Writing -/

/-- The table after `p` was written to a cell, whoever wrote there
before. -/
def overwrite (t : ParsingTable) (A a : Symbol) (p : Production) : ParsingTable :=
  { t with cells := t.cells.alter ⟨A, a⟩ fun old => (old.map (·.write p)).getD (.single p) }

/-- Writes `p` to a cell. A strict write is refused when others have
written there and `p` has not. -/
def write (t : ParsingTable) (A a : Symbol) (p : Production) (strict : Bool) :
    Except AnalysisError ParsingTable :=
  match t.cells.get? ⟨A, a⟩ with
  | some c =>
    if strict && !decide (p ∈ c.writers) then .error (.contested A a c.newest p)
    else .ok (t.overwrite A a p)
  | none => .ok (t.overwrite A a p)

def writeAll (t : ParsingTable) (A : Symbol) (p : Production) (strict : Bool) :
    List Symbol → Except AnalysisError ParsingTable
  | [] => .ok t
  | a :: rest => do (← t.write A a p strict).writeAll A p strict rest

theorem keys_overwrite (t : ParsingTable) (A a : Symbol) (p : Production) :
    (t.overwrite A a p).keys = if ⟨A, a⟩ ∈ t.keys then t.keys else t.keys ++ [⟨A, a⟩] :=
  OrderedMap.keys_alter ..

theorem get?_overwrite (t : ParsingTable) (A a B b : Symbol) (p : Production) :
    (t.overwrite A a p).get? B b =
      if (⟨B, b⟩ : Place) = ⟨A, a⟩ then some p else t.get? B b := by
  simp only [get?, overwrite, OrderedMap.get?_alter]
  split
  · cases t.cells.get? ⟨A, a⟩ with
    | none => rfl
    | some c => by_cases hp : p ∈ c.writers <;> simp [Cell.write, hp]
  · rfl

theorem writers_write? (old : Option Cell) (p : Production) :
    ((some ((old.map (·.write p)).getD (.single p))).map Cell.writers).getD [] =
      if p ∈ (old.map Cell.writers).getD [] then (old.map Cell.writers).getD []
      else (old.map Cell.writers).getD [] ++ [p] := by
  rcases old with _ | c
  · simp [Cell.single]
  · by_cases hp : p ∈ c.writers <;> simp [Cell.write, hp]

theorem writers_overwrite (t : ParsingTable) (A a B b : Symbol) (p : Production) :
    (t.overwrite A a p).writers B b =
      if (⟨B, b⟩ : Place) = ⟨A, a⟩ then
        (if p ∈ t.writers A a then t.writers A a else t.writers A a ++ [p])
      else t.writers B b := by
  unfold writers
  rw [overwrite, OrderedMap.get?_alter]
  split
  · exact writers_write? _ p
  · rfl

end ParsingTable

end Predictive
