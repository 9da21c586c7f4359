/-!
# Maps that remember the order of their keys

A map kept as the list of its entries, each key once, in the order in
which the keys were first written. Writing to a key that is present
changes its value and leaves its place. Every listing this library
shows - rules, sets, table cells, fields of a record - has that order.

Few lemmas characterise writing, and nothing later unfolds it:
`keys_alter` (a new key goes to the end, an old one stays) and
`get?_alter` (one value changes), and for a map that is built up entry
by entry `entries_alter_of_not_mem` and `entries_alter_last`. A map is
known from its keys and what is found at them (`ext_getD`).
-/

namespace Predictive

/-- A list of entries with distinct keys. -/
structure OrderedMap (α β : Type) where
  entries : List (α × β)
  nodup : (entries.map Prod.fst).Nodup

namespace OrderedMap

variable {α β : Type}

/-! ## Entries -/

def empty : OrderedMap α β := ⟨[], List.nodup_nil⟩

instance : EmptyCollection (OrderedMap α β) := ⟨empty⟩

instance : Inhabited (OrderedMap α β) := ⟨empty⟩

/-- The keys, in the order in which they were first written. -/
def keys (m : OrderedMap α β) : List α := m.entries.map Prod.fst

def values (m : OrderedMap α β) : List β := m.entries.map Prod.snd

def size (m : OrderedMap α β) : Nat := m.entries.length

def isEmpty (m : OrderedMap α β) : Bool := m.entries.isEmpty

@[simp] theorem keys_empty : (∅ : OrderedMap α β).keys = [] := rfl

theorem nodup_keys (m : OrderedMap α β) : m.keys.Nodup := m.nodup

theorem ext_entries {m n : OrderedMap α β} (h : m.entries = n.entries) : m = n := by
  cases m; cases n; simp_all

instance [DecidableEq α] [DecidableEq β] : DecidableEq (OrderedMap α β) := fun m n =>
  if h : m.entries = n.entries then .isTrue (ext_entries h)
  else .isFalse fun e => h (e ▸ rfl)

/-- Each value replaced by `f` of it. -/
def map {γ : Type} (f : α → β → γ) (m : OrderedMap α β) : OrderedMap α γ :=
  ⟨m.entries.map fun (a, b) => (a, f a b), by
    rw [List.map_map]; exact m.nodup⟩

@[simp] theorem keys_map {γ : Type} (f : α → β → γ) (m : OrderedMap α β) :
    (m.map f).keys = m.keys := by
  simp [map, keys, Function.comp_def]

variable [DecidableEq α]

/-! ## Looking up -/

def get? (m : OrderedMap α β) (k : α) : Option β := m.entries.lookup k

def contains (m : OrderedMap α β) (k : α) : Bool := (m.get? k).isSome

@[simp] theorem get?_empty (k : α) : (∅ : OrderedMap α β).get? k = none := rfl

theorem contains_iff {m : OrderedMap α β} {k : α} : m.contains k ↔ k ∈ m.keys := by
  simp [contains, get?, keys]

theorem exists_get? {m : OrderedMap α β} {k : α} (h : k ∈ m.keys) : ∃ v, m.get? k = some v :=
  Option.isSome_iff_exists.1 (contains_iff.2 h)

theorem get?_eq_none {m : OrderedMap α β} {k : α} : m.get? k = none ↔ k ∉ m.keys := by
  rw [← contains_iff, contains]
  cases m.get? k <;> simp

theorem lookup_eq_some {l : List (α × β)} (hl : (l.map Prod.fst).Nodup) {k : α} {v : β} :
    l.lookup k = some v ↔ (k, v) ∈ l := by
  induction l with
  | nil => simp
  | cons e l ih =>
    obtain ⟨a, b⟩ := e
    simp only [List.map_cons, List.nodup_cons] at hl
    by_cases h : k = a
    · subst h
      have hn : (k, v) ∉ l := fun hm => hl.1 (List.mem_map.2 ⟨_, hm, rfl⟩)
      simp [hn, eq_comm]
    · have hb : (k == a) = false := by simp [h]
      simp [List.lookup_cons, hb, h, ih hl.2]

/-- An entry of the map is a key with the value found there. -/
theorem get?_eq_some {m : OrderedMap α β} {k : α} {v : β} :
    m.get? k = some v ↔ (k, v) ∈ m.entries := lookup_eq_some m.nodup

theorem get?_map {γ : Type} (f : α → β → γ) (m : OrderedMap α β) (k : α) :
    (m.map f).get? k = (m.get? k).map (f k) := by
  refine Option.ext fun v => ?_
  simp only [get?_eq_some, Option.map_eq_some_iff, map, List.mem_map, Prod.exists,
    Prod.mk.injEq]
  constructor
  · rintro ⟨_, w, hmem, rfl, rfl⟩
    exact ⟨w, hmem, rfl⟩
  · rintro ⟨w, hmem, rfl⟩
    exact ⟨k, w, hmem, rfl, rfl⟩

/-- The entries are the keys with what is found at them. -/
theorem entries_eq (m : OrderedMap α β) (d : β) :
    m.entries = m.keys.map fun k => (k, (m.get? k).getD d) := by
  rw [keys, List.map_map]
  refine (List.map_id' m.entries).symm.trans (List.map_congr_left fun e hmem => ?_)
  rw [Function.comp_apply, get?_eq_some.2 hmem]
  rfl

/-- Maps with the same keys in the same order and the same values are
one; what is read at other keys does not matter. -/
theorem ext_getD {m n : OrderedMap α β} (d : β) (hkeys : m.keys = n.keys)
    (hget : ∀ k, (m.get? k).getD d = (n.get? k).getD d) : m = n := by
  apply ext_entries
  rw [m.entries_eq d, n.entries_eq d, hkeys]
  simp only [hget]

/-! ## Writing -/

/-- The entries after the value at `k` became `f` of what it was. -/
def alterEntries (k : α) (f : Option β → β) : List (α × β) → List (α × β)
  | [] => [(k, f none)]
  | (a, b) :: rest => if a = k then (a, f (some b)) :: rest else (a, b) :: alterEntries k f rest

theorem map_fst_alterEntries (k : α) (f : Option β → β) (l : List (α × β)) :
    (alterEntries k f l).map Prod.fst =
      if k ∈ l.map Prod.fst then l.map Prod.fst else l.map Prod.fst ++ [k] := by
  induction l with
  | nil => simp [alterEntries]
  | cons e l ih =>
    by_cases h : e.1 = k
    · simp [alterEntries, h]
    · have h' : ¬ k = e.1 := fun e' => h e'.symm
      by_cases hm : k ∈ l.map Prod.fst <;> simp_all [alterEntries]

/-- Entries of other keys are passed over. -/
theorem alterEntries_append {k : α} {l : List (α × β)} (h : k ∉ l.map Prod.fst)
    (f : Option β → β) (l' : List (α × β)) :
    alterEntries k f (l ++ l') = l ++ alterEntries k f l' := by
  induction l with
  | nil => rfl
  | cons e l ih =>
    rw [List.map_cons, List.mem_cons, not_or] at h
    rw [List.cons_append, alterEntries, if_neg (Ne.symm h.1), ih h.2]
    rfl

theorem nodup_alterEntries {k : α} {f : Option β → β} {l : List (α × β)}
    (hl : (l.map Prod.fst).Nodup) : ((alterEntries k f l).map Prod.fst).Nodup := by
  rw [map_fst_alterEntries]
  split
  · exact hl
  · next h => exact List.nodup_append.2 ⟨hl, by simp, by grind⟩

/-- The value at `k` becomes `f` of what it was; a new key goes to the
end. -/
def alter (m : OrderedMap α β) (k : α) (f : Option β → β) : OrderedMap α β :=
  ⟨alterEntries k f m.entries, nodup_alterEntries m.nodup⟩

def insert (m : OrderedMap α β) (k : α) (v : β) : OrderedMap α β := m.alter k fun _ => v

/-- The entries of a list written in order, so a repeated key keeps its
first place and takes its last value. -/
def ofList (l : List (α × β)) : OrderedMap α β :=
  l.foldl (fun m (k, v) => m.insert k v) ∅

theorem keys_alter (m : OrderedMap α β) (k : α) (f : Option β → β) :
    (m.alter k f).keys = if k ∈ m.keys then m.keys else m.keys ++ [k] :=
  map_fst_alterEntries k f m.entries

/-- A new key goes to the end of the entries. -/
theorem entries_alter_of_not_mem {m : OrderedMap α β} {k : α} (h : k ∉ m.keys)
    (f : Option β → β) : (m.alter k f).entries = m.entries ++ [(k, f none)] := by
  have hentries := alterEntries_append h f []
  rwa [List.append_nil] at hentries

/-- The last entry changes in its place. -/
theorem entries_alter_last {m : OrderedMap α β} {l : List (α × β)} {k : α} {v : β}
    (h : m.entries = l ++ [(k, v)]) (f : Option β → β) :
    (m.alter k f).entries = l ++ [(k, f (some v))] := by
  have hnodup := m.nodup
  rw [h, List.map_append] at hnodup
  have hk : k ∉ l.map Prod.fst := fun hmem =>
    (List.nodup_append.1 hnodup).2.2 k hmem k (List.mem_singleton_self k) rfl
  have hentries := alterEntries_append hk f [(k, v)]
  rwa [← h, alterEntries, if_pos rfl] at hentries

theorem lookup_alterEntries (k k' : α) (f : Option β → β) (l : List (α × β)) :
    (alterEntries k f l).lookup k' = if k' = k then some (f (l.lookup k)) else l.lookup k' := by
  induction l with
  | nil =>
    by_cases h : k' = k
    · simp [alterEntries, h]
    · have hb : (k' == k) = false := by simp [h]
      simp [alterEntries, List.lookup_cons, hb, h]
  | cons e l ih =>
    obtain ⟨a, b⟩ := e
    by_cases ha : a = k
    · subst ha
      by_cases h : k' = a
      · simp [alterEntries, h]
      · have hb : (k' == a) = false := by simp [h]
        simp [alterEntries, List.lookup_cons, hb, h]
    · have hka : (k == a) = false := by simpa using fun e : k = a => ha e.symm
      by_cases h : k' = a
      · subst h
        simp [alterEntries, ha]
      · have hb : (k' == a) = false := by simp [h]
        simp [alterEntries, ha, List.lookup_cons, hb, hka, ih]

/-- Writing at one key changes what is found there and nowhere else. -/
theorem get?_alter (m : OrderedMap α β) (k k' : α) (f : Option β → β) :
    (m.alter k f).get? k' = if k' = k then some (f (m.get? k)) else m.get? k' :=
  lookup_alterEntries k k' f m.entries

/-- Entries with new keys that are written one after another follow those
that were there. -/
theorem entries_foldl_insert {l : List (α × β)} {m : OrderedMap α β}
    (h : (m.keys ++ l.map Prod.fst).Nodup) :
    (l.foldl (fun m (k, v) => m.insert k v) m).entries = m.entries ++ l := by
  induction l generalizing m with
  | nil => exact (List.append_nil _).symm
  | cons e l ih =>
    rw [List.map_cons] at h
    have hnew : e.1 ∉ m.keys := fun hmem =>
      (List.nodup_append.1 h).2.2 _ hmem _ (List.mem_cons_self ..) rfl
    have hentries : (m.insert e.1 e.2).entries = m.entries ++ [e] :=
      entries_alter_of_not_mem hnew fun _ => e.2
    have hkeys : (m.insert e.1 e.2).keys = m.keys ++ [e.1] := by
      rw [keys, hentries, List.map_append]
      rfl
    rw [List.foldl_cons, ih (by rwa [hkeys, List.append_assoc]), hentries, List.append_assoc]
    rfl

/-- A list of entries with distinct keys is the map that is written from
it. -/
theorem entries_ofList {l : List (α × β)} (h : (l.map Prod.fst).Nodup) :
    (ofList l).entries = l :=
  entries_foldl_insert (m := ∅) h

theorem keys_insert (m : OrderedMap α β) (k : α) (v : β) :
    (m.insert k v).keys = if k ∈ m.keys then m.keys else m.keys ++ [k] := keys_alter ..

theorem get?_insert (m : OrderedMap α β) (k k' : α) (v : β) :
    (m.insert k v).get? k' = if k' = k then some v else m.get? k' := get?_alter ..

/-! ## Comparing -/

/-- The two maps hold the same entries, in whatever order. -/
def sameEntries [DecidableEq β] (m n : OrderedMap α β) : Bool :=
  m.size == n.size && m.entries.all fun (k, v) => n.get? k == some v

end OrderedMap

end Predictive
