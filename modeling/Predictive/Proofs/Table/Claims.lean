import Predictive.Proofs.FirstAppearance
import Predictive.Proofs.Table.Contents

/-!
# Claims on the cells of a table

Whatever order a table is filled in, it is filled by claims: a
production claims a cell, and the claim is granted or refused. What a
claim meets is decided by the writers of its cell alone
(`Claim.refusal?`): a strict claim is refused when others have written
there and its production has not.

A table that took claims is known from those that it granted: it
`Records` them. Its cells stand in the order in which they were first
claimed, a cell has the productions that claimed it as its writers, in
the order in which each first did, and the last claim has the cell. A
claim that is granted carries this on (`Records.grant`), and one that
is refused leaves the table alone. A collision is a cell that different
productions have claimed (`Records.mem_collisions_iff`).
-/

namespace Predictive

/-! ## Collisions -/

namespace ParsingTable

variable {t : ParsingTable}

theorem mem_collisions {place : Place} {ws : List Production} :
    (place, ws) ∈ t.collisions ↔ ws = t.writers place.row place.column ∧ 1 < ws.length := by
  simp only [collisions, List.mem_map, List.mem_filter, decide_eq_true_eq, Prod.exists,
    Prod.mk.injEq, writers]
  constructor
  · rintro ⟨_, c, ⟨hcell, hlength⟩, rfl, rfl⟩
    rw [OrderedMap.get?_eq_some.2 hcell]
    exact ⟨rfl, hlength⟩
  · rintro ⟨rfl, hlength⟩
    cases hcell : t.cells.get? ⟨place.row, place.column⟩ with
    | none =>
      rw [hcell] at hlength
      exact absurd hlength (Nat.not_lt_zero 1)
    | some c =>
      rw [hcell] at hlength
      exact ⟨place, c, ⟨OrderedMap.get?_eq_some.1 hcell, hlength⟩, rfl, rfl⟩

/-- No cell has more than one writer. -/
def Uncontested (t : ParsingTable) : Prop := ∀ A a, (t.writers A a).length ≤ 1

theorem collisions_eq_nil_iff : t.collisions = [] ↔ t.Uncontested := by
  rw [List.eq_nil_iff_forall_not_mem]
  constructor
  · intro h A a
    by_contra hlength
    exact h (⟨A, a⟩, _) (mem_collisions.2 ⟨rfl, Nat.lt_of_not_le hlength⟩)
  · rintro h ⟨place, ws⟩ hmem
    obtain ⟨rfl, hlength⟩ := mem_collisions.1 hmem
    exact Nat.not_lt.2 (h place.row place.column) hlength

end ParsingTable

/-! ## Claims -/

/-- A production that is to be written to a cell. -/
structure Claim where
  place : Place
  production : Production
deriving DecidableEq

namespace Claim

/-- What stands against a claim on a cell with the given writers. -/
def refusal? (c : Claim) (strict : Bool) (writers : List Production) : Option AnalysisError :=
  if strict = true ∧ c.production ∉ writers then
    writers.getLast?.map fun newest => .contested c.place.row c.place.column newest c.production
  else none

variable {c : Claim} {strict : Bool} {writers : List Production}

theorem refusal?_isSome :
    (c.refusal? strict writers).isSome ↔
      strict = true ∧ writers ≠ [] ∧ c.production ∉ writers := by
  rw [refusal?]
  split
  · next h => simp [h]
  · next h => exact iff_of_false (by simp) fun ⟨hs, _, hp⟩ => h ⟨hs, hp⟩

theorem refusal?_lenient (c : Claim) (writers : List Production) :
    c.refusal? false writers = none :=
  if_neg fun h => Bool.false_ne_true h.1

/-- The productions that claim a cell, one for each claim. -/
def productionsAt (place : Place) (history : List Claim) : List Production :=
  (history.filter (·.place = place)).map production

theorem productionsAt_concat (place : Place) (history : List Claim) (c : Claim) :
    productionsAt place (history ++ [c]) =
      if place = c.place then productionsAt place history ++ [c.production]
      else productionsAt place history := by
  rw [productionsAt, List.filter_append, List.map_append]
  split
  · next h => simp [productionsAt, h]
  · next h => simp [productionsAt, Ne.symm h]

theorem mem_productionsAt {place : Place} {history : List Claim} {p : Production} :
    p ∈ productionsAt place history ↔ ⟨place, p⟩ ∈ history := by
  simp only [productionsAt, List.mem_map, List.mem_filter, decide_eq_true_eq]
  constructor
  · rintro ⟨c, ⟨hmem, rfl⟩, rfl⟩
    exact hmem
  · exact fun hmem => ⟨_, ⟨hmem, rfl⟩, rfl⟩

end Claim

namespace ParsingTable

/-! ## Taking one claim -/

variable {t : ParsingTable} {history : List Claim}

def writersAt (t : ParsingTable) (place : Place) : List Production :=
  t.writers place.row place.column

/-- The table after a claim was granted. -/
def grant (t : ParsingTable) (c : Claim) : ParsingTable :=
  t.overwrite c.place.row c.place.column c.production

/-- The table after a claim, when it is granted. -/
def claim (t : ParsingTable) (c : Claim) (strict : Bool) : Except AnalysisError ParsingTable :=
  t.write c.place.row c.place.column c.production strict

theorem claim_eq (t : ParsingTable) (c : Claim) (strict : Bool) :
    t.claim c strict =
      (c.refusal? strict (t.writersAt c.place)).elim (.ok (t.grant c)) .error := by
  rw [claim, write, writersAt, writers, grant, Claim.refusal?]
  cases t.cells.get? ⟨c.place.row, c.place.column⟩ with
  | none => simp
  | some cell =>
    have hnewest : cell.writers.getLast? = some cell.newest :=
      List.getLast?_eq_some_getLast (List.ne_nil_of_mem cell.winner_mem)
    by_cases hs : strict = true <;> by_cases hp : c.production ∈ cell.writers <;>
      simp [hs, hp, hnewest]

theorem keys_grant (t : ParsingTable) (c : Claim) :
    (t.grant c).keys = if c.place ∈ t.keys then t.keys else t.keys ++ [c.place] :=
  t.keys_overwrite ..

theorem writersAt_grant (t : ParsingTable) (c : Claim) (place : Place) :
    (t.grant c).writersAt place =
      if place = c.place then
        (if c.production ∈ t.writersAt c.place then t.writersAt c.place
          else t.writersAt c.place ++ [c.production])
      else t.writersAt place :=
  t.writers_overwrite ..

theorem get?_grant (t : ParsingTable) (c : Claim) (place : Place) :
    (t.grant c).get? place.row place.column =
      if place = c.place then some c.production else t.get? place.row place.column :=
  t.get?_overwrite ..

/-! ## Taking many -/

/-- The table after the claims of a history were granted. -/
def grantAll (t : ParsingTable) (history : List Claim) : ParsingTable := history.foldl grant t

theorem grantAll_append (t : ParsingTable) (cs ds : List Claim) :
    t.grantAll (cs ++ ds) = (t.grantAll cs).grantAll ds := List.foldl_append

/-- The table holds what the claims of a history wrote. -/
structure Records (t : ParsingTable) (history : List Claim) : Prop where
  keys : t.keys = (history.map Claim.place).eraseDups
  writers : ∀ place, t.writersAt place = (Claim.productionsAt place history).eraseDups
  get? : ∀ place, t.get? place.row place.column = (Claim.productionsAt place history).getLast?

namespace Records

theorem blank (nonterminals terminals : List Symbol) :
    (ParsingTable.blank nonterminals terminals).Records [] :=
  ⟨rfl, fun _ => rfl, fun _ => rfl⟩

theorem grant (h : t.Records history) (c : Claim) : (t.grant c).Records (history ++ [c]) where
  keys := by rw [keys_grant, h.keys, List.map_append, List.map_singleton, eraseDups_concat]
  writers place := by
    rw [writersAt_grant, Claim.productionsAt_concat]
    split
    · next hplace => rw [h.writers, hplace, eraseDups_concat]
    · exact h.writers place
  get? place := by
    rw [get?_grant, Claim.productionsAt_concat]
    split
    · exact List.getLast?_concat.symm
    · exact h.get? place

theorem grantAll (h : t.Records history) (cs : List Claim) :
    (t.grantAll cs).Records (history ++ cs) := by
  induction cs generalizing t history with
  | nil => rwa [List.append_nil]
  | cons c cs ih =>
    rw [List.append_cons]
    exact ih (h.grant c)

theorem grantAll_blank (nonterminals terminals : List Symbol) (cs : List Claim) :
    ((ParsingTable.blank nonterminals terminals).grantAll cs).Records cs :=
  (blank nonterminals terminals).grantAll cs

theorem nodup_writers (h : t.Records history) (place : Place) : (t.writersAt place).Nodup :=
  h.writers place ▸ nodup_eraseDups _

theorem mem_writers (h : t.Records history) {place : Place} {p : Production} :
    p ∈ t.writersAt place ↔ p ∈ Claim.productionsAt place history := by
  rw [h.writers, List.mem_eraseDups]

theorem mem_of_get? (h : t.Records history) {place : Place} {p : Production}
    (hp : t.get? place.row place.column = some p) : p ∈ t.writersAt place := by
  rw [h.get?] at hp
  exact h.mem_writers.2 (List.mem_of_getLast? hp)

theorem mem_collisions_iff (h : t.Records history) {place : Place} {ws : List Production} :
    (place, ws) ∈ t.collisions ↔
      ws = t.writersAt place ∧ ∃ p ∈ Claim.productionsAt place history,
        ∃ q ∈ Claim.productionsAt place history, p ≠ q := by
  refine mem_collisions.trans (and_congr_right fun hws => ?_)
  simp only [hws, ← h.mem_writers]
  exact one_lt_length_iff_exists_ne (h.nodup_writers place)

end Records

end ParsingTable

end Predictive
