import Predictive.Proofs.Table.Claims

/-!
# The table as two maps

A table can be kept in two maps: the production of each cell, and
beside it a log of everything that was written there. The log of a cell
is opened before anything else happens, also when the claim is refused
in the end, and a production goes to the cell after it went to the log.
Calls follow each other whether the ones before them were granted or
not.

The two maps do not come apart. Every call takes the maps of a table to
the maps of the table after it (`take_register`): a log that is opened
for nothing was open already, since only others' writing stands against
a claim. So the maps are known from the calls that were granted, like
the table (`register_law`).
-/

namespace Predictive

/-! ## Calls -/

/-- A claim as it is made, strictly or not. -/
structure Call where
  claim : Claim
  strict : Bool
deriving DecidableEq

/-- The production of each cell, and a log of all that was written
there. -/
structure Register where
  cells : OrderedMap Place Production
  log : OrderedMap Place (List Production)
deriving DecidableEq

namespace Register

def empty : Register := ⟨∅, ∅⟩

def writers (r : Register) (place : Place) : List Production := (r.log.get? place).getD []

def collisions (r : Register) : List (Place × List Production) :=
  r.log.entries.filter fun entry => 1 < entry.2.length

/-- What stands against a call, and the maps that it leaves behind
either way. -/
def take (r : Register) (call : Call) : Option AnalysisError × Register :=
  let place := call.claim.place
  let production := call.claim.production
  let log := r.log.alter place fun old => old.getD []
  let writers := (log.get? place).getD []
  match call.claim.refusal? call.strict writers with
  | some e => (some e, { r with log })
  | none =>
    (none, ⟨r.cells.insert place production,
      if production ∈ writers then log else log.insert place (writers ++ [production])⟩)

def after (r : Register) (calls : List Call) : Register :=
  calls.foldl (fun r call => (r.take call).2) r

/-- The claims of the calls against which nothing stood. -/
def granted (r : Register) : List Call → List Claim
  | [] => []
  | call :: calls =>
    if (r.take call).1 = none then call.claim :: (r.take call).2.granted calls
    else (r.take call).2.granted calls

end Register

namespace ParsingTable

/-- The table after a call; a refused one changes nothing. -/
def afterCall (t : ParsingTable) (call : Call) : ParsingTable :=
  (t.claim call.claim call.strict).toOption.getD t

def after (t : ParsingTable) (calls : List Call) : ParsingTable := calls.foldl afterCall t

/-! ## The two maps of a table -/

/-- A table kept in two maps. -/
def register (t : ParsingTable) : Register :=
  ⟨t.cells.map fun _ c => c.winner, t.cells.map fun _ c => c.writers⟩

variable {t : ParsingTable} {call : Call}

theorem get?_register (t : ParsingTable) (place : Place) :
    t.register.cells.get? place = t.get? place.row place.column :=
  OrderedMap.get?_map ..

theorem writers_register (t : ParsingTable) (place : Place) :
    t.register.writers place = t.writersAt place :=
  congrArg (Option.getD · []) (OrderedMap.get?_map ..)

theorem collisions_register (t : ParsingTable) : t.register.collisions = t.collisions := by
  rw [Register.collisions]
  exact List.filter_map

theorem keys_register (t : ParsingTable) : t.register.cells.keys = t.keys :=
  OrderedMap.keys_map ..

theorem keys_log_register (t : ParsingTable) : t.register.log.keys = t.keys :=
  OrderedMap.keys_map ..

/-- Two maps over the cells of a table that show its productions and
its writers are the maps of the table. -/
theorem eq_register {r : Register} (hcells : r.cells.keys = t.keys) (hlog : r.log.keys = t.keys)
    (hget : ∀ place, r.cells.get? place = t.get? place.row place.column)
    (hwriters : ∀ place, r.writers place = t.writersAt place) : r = t.register := by
  have hc : r.cells = t.register.cells :=
    OrderedMap.ext_getD ⟨.epsilon, []⟩ (hcells.trans t.keys_register.symm) fun place =>
      congrArg (Option.getD · _) ((hget place).trans (t.get?_register place).symm)
  have hl : r.log = t.register.log :=
    OrderedMap.ext_getD [] (hlog.trans t.keys_log_register.symm) fun place =>
      (hwriters place).trans (t.writers_register place).symm
  obtain ⟨cells, log⟩ := r
  exact congrArg₂ Register.mk hc hl

/-! ## One call -/

/-- The log in which the record of a cell was opened. -/
def openLog (t : ParsingTable) (place : Place) : OrderedMap Place (List Production) :=
  t.register.log.alter place fun old => old.getD []

theorem keys_openLog (t : ParsingTable) (place : Place) :
    (t.openLog place).keys = if place ∈ t.keys then t.keys else t.keys ++ [place] := by
  rw [openLog, OrderedMap.keys_alter, keys_log_register]

theorem writers_openLog (t : ParsingTable) (place place' : Place) :
    ((t.openLog place).get? place').getD [] = t.writersAt place' := by
  rw [openLog, OrderedMap.get?_alter, ← writers_register]
  split
  · next h =>
    subst h
    rfl
  · rfl

theorem register_grant (t : ParsingTable) (c : Claim) :
    (⟨t.register.cells.insert c.place c.production,
      if c.production ∈ t.writersAt c.place then t.openLog c.place
      else (t.openLog c.place).insert c.place (t.writersAt c.place ++ [c.production])⟩ :
        Register) = (t.grant c).register := by
  refine eq_register ?_ ?_ (fun place => ?_) fun place => ?_
  · rw [OrderedMap.keys_insert, keys_register, keys_grant]
  · have hin : c.place ∈ (t.openLog c.place).keys := by
      rw [keys_openLog]
      split <;> simp [*]
    rw [keys_grant, ← keys_openLog]
    split
    · rfl
    · rw [OrderedMap.keys_insert, if_pos hin]
  · rw [OrderedMap.get?_insert, get?_register, get?_grant]
  · rw [Register.writers, writersAt_grant]
    split
    · rw [writers_openLog]
      split
      · next h => rw [h]
      · rfl
    · rw [OrderedMap.get?_insert]
      split
      · rfl
      · exact t.writers_openLog ..

/-- A call takes the maps of a table to the maps of the table after it,
and a refused call leaves them as they were. -/
theorem take_register (t : ParsingTable) (call : Call) :
    t.register.take call =
      (call.claim.refusal? call.strict (t.writersAt call.claim.place)).elim
        (none, (t.grant call.claim).register) (fun e => (some e, t.register)) := by
  simp only [Register.take]
  rw [← openLog, writers_openLog, register_grant]
  cases hrefusal : call.claim.refusal? call.strict (t.writersAt call.claim.place) with
  | none => rfl
  | some e =>
    -- who stands against a claim has written, so the log was open
    obtain ⟨-, hne, -⟩ := Claim.refusal?_isSome.1 (Option.isSome_of_mem hrefusal)
    have hmem : call.claim.place ∈ t.keys := mem_keys.2 (List.exists_mem_of_ne_nil _ hne)
    have hkeys : (t.openLog call.claim.place).keys = t.keys := by rw [keys_openLog, if_pos hmem]
    exact congrArg (some e, ·)
      (eq_register t.keys_register hkeys t.get?_register (t.writers_openLog _))

theorem claim_eq_error_iff {e : AnalysisError} :
    t.claim call.claim call.strict = .error e ↔ (t.register.take call).1 = some e := by
  rw [claim_eq, take_register]
  cases call.claim.refusal? call.strict (t.writersAt call.claim.place) <;> simp

theorem take_isSome_iff :
    (t.register.take call).1.isSome ↔ call.strict = true ∧
      t.writersAt call.claim.place ≠ [] ∧
        call.claim.production ∉ t.writersAt call.claim.place := by
  rw [← Claim.refusal?_isSome, take_register]
  cases call.claim.refusal? call.strict (t.writersAt call.claim.place) <;> rfl

theorem take_of_refused {e : AnalysisError} (h : (t.register.take call).1 = some e) :
    (t.register.take call).2 = t.register := by
  rw [take_register] at h ⊢
  cases hrefusal : call.claim.refusal? call.strict (t.writersAt call.claim.place) with
  | none => rw [hrefusal] at h; cases h
  | some _ => rfl

/-! ## Calls one after another -/

/-- The maps stay those of the table, and the table records the claims
that were granted. -/
theorem after_register {history : List Claim} (h : t.Records history) (calls : List Call) :
    t.register.after calls = (t.after calls).register ∧
      (t.after calls).Records (history ++ t.register.granted calls) := by
  induction calls generalizing t history with
  | nil => exact ⟨rfl, (List.append_nil history).symm ▸ h⟩
  | cons call calls ih =>
    rw [Register.after, List.foldl_cons, after, List.foldl_cons, afterCall, Register.granted,
      claim_eq, take_register]
    cases call.claim.refusal? call.strict (t.writersAt call.claim.place) with
    | none =>
      obtain ⟨hafter, hrecords⟩ := ih (h.grant call.claim)
      exact ⟨hafter, List.append_cons .. ▸ hrecords⟩
    | some e => exact ih h

end ParsingTable

/-- The two maps hold what the claims of a history wrote. -/
structure Register.Records (r : Register) (history : List Claim) : Prop where
  keys : r.cells.keys = (history.map Claim.place).eraseDups
  /-- The log has the cells of the table, in the same order. -/
  keys_log : r.log.keys = r.cells.keys
  writers : ∀ place, r.writers place = (Claim.productionsAt place history).eraseDups
  nodup_writers : ∀ place, (r.writers place).Nodup
  /-- The last claim has the cell. -/
  get? : ∀ place, r.cells.get? place = (Claim.productionsAt place history).getLast?
  mem_of_get? : ∀ place p, r.cells.get? place = some p → p ∈ r.writers place
  /-- A collision is a cell that two productions have claimed. -/
  collisions : ∀ place ws, (place, ws) ∈ r.collisions ↔ ws = r.writers place ∧
    ∃ p ∈ Claim.productionsAt place history, ∃ q ∈ Claim.productionsAt place history, p ≠ q

theorem ParsingTable.Records.register {t : ParsingTable} {history : List Claim}
    (h : t.Records history) : t.register.Records history where
  keys := t.keys_register.trans h.keys
  keys_log := t.keys_log_register.trans t.keys_register.symm
  writers place := (t.writers_register place).trans (h.writers place)
  nodup_writers place := t.writers_register place ▸ h.nodup_writers place
  get? place := (t.get?_register place).trans (h.get? place)
  mem_of_get? place p hp :=
    t.writers_register place ▸ h.mem_of_get? ((t.get?_register place).symm.trans hp)
  collisions place ws := by
    rw [t.collisions_register, t.writers_register]
    exact h.mem_collisions_iff

/-- After every sequence of calls on an empty table, strict or not, its
two maps have the cells in the order in which they were first claimed,
and in each cell what the granted claims wrote there. A call is refused
when it is strict and others have written to the cell and its production
has not, and then both maps are as they were before it. -/
theorem ParsingTable.register_law (rows columns : List Symbol) (calls : List Call) :
    Register.empty.after calls = ((ParsingTable.blank rows columns).after calls).register ∧
      (Register.empty.after calls).Records (Register.empty.granted calls) ∧
      ∀ call : Call,
        (((Register.empty.after calls).take call).1.isSome ↔ call.strict = true ∧
          (Register.empty.after calls).writers call.claim.place ≠ [] ∧
            call.claim.production ∉ (Register.empty.after calls).writers call.claim.place) ∧
        (((Register.empty.after calls).take call).1.isSome →
          ((Register.empty.after calls).take call).2 = Register.empty.after calls) ∧
        ∀ e, ((Register.empty.after calls).take call).1 = some e ↔
          ((ParsingTable.blank rows columns).after calls).claim call.claim call.strict =
            .error e := by
  have hempty : Register.empty = (blank rows columns).register := rfl
  obtain ⟨hafter, hrecords⟩ := after_register (Records.blank rows columns) calls
  rw [← hempty] at hafter hrecords
  rw [List.nil_append] at hrecords
  refine ⟨hafter, hafter ▸ hrecords.register, fun call => ?_⟩
  rw [hafter, writers_register]
  refine ⟨take_isSome_iff, fun hrefused => ?_, fun e => claim_eq_error_iff.symm⟩
  obtain ⟨e, he⟩ := Option.isSome_iff_exists.1 hrefused
  exact take_of_refused he

/-- A production that was overwritten takes its cell again, strictly as
well, and one that never came in is not in the log. -/
example :
    let p : Production := ⟨.single 'S', [.single 'a']⟩
    let q : Production := ⟨.single 'S', [.single 'b']⟩
    let r : Production := ⟨.single 'S', [.single 'c']⟩
    let place : Place := ⟨.single 'S', .single 'a'⟩
    Register.empty.after [⟨⟨place, p⟩, true⟩, ⟨⟨place, q⟩, false⟩, ⟨⟨place, r⟩, true⟩,
        ⟨⟨place, p⟩, true⟩] =
      ⟨OrderedMap.ofList [(place, p)], OrderedMap.ofList [(place, [p, q])]⟩ := by
  decide

end Predictive
