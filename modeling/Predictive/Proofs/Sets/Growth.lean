import Mathlib.Data.Finset.Prod
import Predictive.Sets.Saturation

/-!
# Passes that only add

Both set computations repeat a pass, and a pass is a fold of steps,
each of which adds symbols to one set. Two properties of a step carry
everything (`Growing`): it never takes a symbol away, and it adds no
less to larger sets.

The repetition stops by comparing total sizes alone. That is enough:
the members of a map form a finite set of pairs whose size is the total
(`card_members`), and a map that grew without changing its size did not
grow (`le_of_total_eq`). So the sets at the end are closed under every
step (`run_closed`), provided the passes allowed exceed the pairs that
can ever be in the map; and whatever holds of the sets at the beginning
and is kept by each step holds of them at the end (`run_induction`).
-/

namespace Predictive

namespace SetMap

/-! ## Order -/

/-- One map is below another when each of its sets is contained in the
other's. -/
instance : Preorder SetMap where
  le m n := ∀ A, m.find A ⊆ n.find A
  le_refl _ _ _ h := h
  le_trans _ _ _ h h' A s hs := h' A s (h A s hs)

theorem mem_find_addAll {m : SetMap} {A B s : Symbol} {S : SymbolSet} :
    s ∈ (m.addAll A S).find B ↔ s ∈ m.find B ∨ (B = A ∧ s ∈ S) := by
  rw [find_addAll]
  split
  · next h => subst h; simp
  · next h => simp [h]

theorem le_addAll (m : SetMap) (A : Symbol) (S : SymbolSet) : m ≤ m.addAll A S :=
  fun _ _ h => mem_find_addAll.2 (Or.inl h)

theorem addAll_mono {m n : SetMap} {S T : SymbolSet} (h : m ≤ n) (A : Symbol) (hST : S ⊆ T) :
    m.addAll A S ≤ n.addAll A T := by
  intro B s hs
  rcases mem_find_addAll.1 hs with hm | ⟨hB, hS⟩
  · exact mem_find_addAll.2 (Or.inl (h B s hm))
  · exact mem_find_addAll.2 (Or.inr ⟨hB, hST s hS⟩)

theorem mem_of_addAll_le {m : SetMap} {A s : Symbol} {S : SymbolSet} (h : m.addAll A S ≤ m)
    (hs : s ∈ S) : s ∈ m.find A :=
  h A s (mem_find_addAll.2 (Or.inr ⟨rfl, hs⟩))

/-! ## Members -/

/-- The pairs of a key and a symbol in its set, entry by entry. -/
def pairs (m : SetMap) : List (Symbol × Symbol) :=
  m.entries.flatMap fun e => e.2.toList.map (e.1, ·)

theorem mem_pairs {m : SetMap} {A s : Symbol} : (A, s) ∈ m.pairs ↔ s ∈ m.find A := by
  simp only [pairs, List.mem_flatMap, List.mem_map, Prod.mk.injEq, Prod.exists]
  constructor
  · rintro ⟨B, S, hmem, t, ht, rfl, rfl⟩
    rw [find, OrderedMap.get?_eq_some.2 hmem]
    exact ht
  · intro h
    rw [find] at h
    cases hA : m.get? A with
    | none => rw [hA] at h; exact absurd h (SymbolSet.not_mem_empty s)
    | some S =>
      rw [hA] at h
      exact ⟨A, S, OrderedMap.get?_eq_some.1 hA, s, h, rfl, rfl⟩

theorem mem_keys_of_mem_find {m : SetMap} {A s : Symbol} (h : s ∈ m.find A) : A ∈ m.keys := by
  by_contra hA
  rw [find, OrderedMap.get?_eq_none.2 hA] at h
  exact SymbolSet.not_mem_empty s h

theorem nodup_pairs (m : SetMap) : m.pairs.Nodup := by
  have hdistinct : m.entries.Pairwise (fun e e' => e.1 ≠ e'.1) := List.pairwise_map.1 m.nodup
  refine List.pairwise_flatMap.2 ⟨fun e _ => ?_, hdistinct.imp fun hne x hx y hy => ?_⟩
  · refine List.pairwise_map.2 (e.2.sorted.imp fun hlt heq => ?_)
    obtain rfl := (Prod.mk.inj heq).2
    exact Symbol.lt_irrefl _ hlt
  · rintro rfl
    obtain ⟨s, -, hs⟩ := List.mem_map.1 hx
    obtain ⟨t, -, ht⟩ := List.mem_map.1 hy
    exact hne ((congrArg Prod.fst hs).trans (congrArg Prod.fst ht).symm)

theorem length_pairs (m : SetMap) : m.pairs.length = m.total := by
  simp only [pairs, total, OrderedMap.values, length_flatMap_eq_tally, tally_map, List.length_map]
  rfl

/-- The pairs of a key and a symbol in its set. -/
def members (m : SetMap) : Finset (Symbol × Symbol) := m.pairs.toFinset

theorem mem_members {m : SetMap} {A s : Symbol} : (A, s) ∈ m.members ↔ s ∈ m.find A := by
  rw [members, List.mem_toFinset, mem_pairs]

theorem card_members (m : SetMap) : m.members.card = m.total := by
  rw [members, List.toFinset_card_of_nodup m.nodup_pairs, length_pairs]

theorem members_subset {m n : SetMap} (h : m ≤ n) : m.members ⊆ n.members := by
  rintro ⟨A, s⟩ hs
  exact mem_members.2 (h A s (mem_members.1 hs))

theorem total_le {m n : SetMap} (h : m ≤ n) : m.total ≤ n.total := by
  rw [← card_members, ← card_members]
  exact Finset.card_le_card (members_subset h)

theorem le_of_total_eq {m n : SetMap} (h : m ≤ n) (ht : n.total = m.total) : n ≤ m := by
  have hcard : n.members.card ≤ m.members.card := by rw [card_members, card_members, ht]
  have heq : m.members = n.members := Finset.eq_of_subset_of_card_le (members_subset h) hcard
  intro A s hs
  rw [← mem_members, heq]
  exact mem_members.2 hs

/-! ## Reach -/

/-- The pairs that steps over `rows` can reach from a map: a key of the
map or one of `rows`, with a symbol in the
map or one of `symbols`. -/
def reach (m : SetMap) (rows symbols : List Symbol) : Finset (Symbol × Symbol) :=
  (m.keys ++ rows).toFinset ×ˢ (m.pairs.map Prod.snd ++ symbols).toFinset

variable {rows symbols : List Symbol}

theorem card_reach_lt (m : SetMap) (rows symbols : List Symbol) :
    (m.reach rows symbols).card <
      Saturation.capacity (m.size + rows.length) (m.total + symbols.length) := by
  have hrows : (m.keys ++ rows).toFinset.card ≤ m.size + rows.length := by
    refine le_trans (List.toFinset_card_le _) (le_of_eq ?_)
    rw [List.length_append, OrderedMap.keys, List.length_map]
    rfl
  have hsymbols : (m.pairs.map Prod.snd ++ symbols).toFinset.card ≤ m.total + symbols.length := by
    refine le_trans (List.toFinset_card_le _) (le_of_eq ?_)
    rw [List.length_append, List.length_map, length_pairs]
  rw [reach, Finset.card_product, Saturation.capacity]
  exact Nat.lt_succ_of_le (Nat.mul_le_mul hrows hsymbols)

theorem members_subset_reach (m : SetMap) (rows symbols : List Symbol) :
    m.members ⊆ m.reach rows symbols := by
  rintro ⟨A, s⟩ h
  have hmem := mem_members.1 h
  have hkey := mem_keys_of_mem_find hmem
  have hsymbol : s ∈ m.pairs.map Prod.snd := List.mem_map.2 ⟨_, mem_pairs.2 hmem, rfl⟩
  rw [reach, Finset.mem_product, List.mem_toFinset, List.mem_toFinset]
  exact ⟨List.mem_append_left _ hkey, List.mem_append_left _ hsymbol⟩

/-- Adding to one of the rows symbols of which each is known or stood
in the sets stays in reach. -/
theorem members_addAll_subset {m n : SetMap} {A : Symbol} {S : SymbolSet} (hA : A ∈ rows)
    (hn : n.members ⊆ m.reach rows symbols)
    (hS : ∀ s ∈ S, s ∈ symbols ∨ ∃ B, s ∈ n.find B) :
    (n.addAll A S).members ⊆ m.reach rows symbols := by
  rintro ⟨B, s⟩ h
  rcases mem_find_addAll.1 (mem_members.1 h) with hold | ⟨rfl, hnew⟩
  · exact hn (mem_members.2 hold)
  · rw [reach, Finset.mem_product, List.mem_toFinset, List.mem_toFinset]
    refine ⟨List.mem_append_right _ hA, ?_⟩
    rcases hS s hnew with hs | ⟨C, hC⟩
    · exact List.mem_append_right _ hs
    · have hmem := hn (mem_members.2 hC)
      rw [reach, Finset.mem_product] at hmem
      exact List.mem_toFinset.1 hmem.2

/-! ## Restriction -/

theorem get?_foldl_insert (v : Symbol → SymbolSet) (l : List Symbol) (m : SetMap) (A : Symbol) :
    ((l.map fun B => (B, v B)).foldl (fun m e => m.insert e.1 e.2) m).get? A =
      if A ∈ l then some (v A) else m.get? A := by
  induction l generalizing m with
  | nil => simp
  | cons B l ih =>
    rw [List.map_cons, List.foldl_cons, ih, OrderedMap.get?_insert]
    by_cases hl : A ∈ l
    · simp [hl]
    · by_cases hB : A = B
      · simp [hB]
      · simp [hl, hB]

theorem get?_restrict (m : SetMap) (l : List Symbol) (A : Symbol) :
    (m.restrict l).get? A = if A ∈ l then some (m.find A) else none :=
  get?_foldl_insert m.find l ∅ A

theorem find_restrict {m : SetMap} {l : List Symbol} {A : Symbol} (h : A ∈ l) :
    (m.restrict l).find A = m.find A := by
  rw [find, get?_restrict, if_pos h]
  rfl

theorem restrict_le (m : SetMap) (l : List Symbol) : m.restrict l ≤ m := by
  intro A s hs
  by_cases hA : A ∈ l
  · rwa [find_restrict hA] at hs
  · rw [find, get?_restrict, if_neg hA] at hs
    exact absurd hs (SymbolSet.not_mem_empty s)

theorem keys_foldl_insert (v : Symbol → SymbolSet) {l : List Symbol} {m : SetMap}
    (h : (m.keys ++ l).Nodup) :
    ((l.map fun B => (B, v B)).foldl (fun m e => m.insert e.1 e.2) m).keys = m.keys ++ l := by
  induction l generalizing m with
  | nil => simp
  | cons B l ih =>
    have hB : B ∉ m.keys := by
      intro hm
      exact (List.nodup_append.1 h).2.2 B hm B (List.mem_cons_self ..) rfl
    have hkeys : (m.insert B (v B)).keys = m.keys ++ [B] := by
      rw [OrderedMap.keys_insert, if_neg hB]
    have hnodup : ((m.insert B (v B)).keys ++ l).Nodup := by
      rw [hkeys, List.append_assoc]
      exact h
    rw [List.map_cons, List.foldl_cons, ih hnodup, hkeys, List.append_assoc]
    rfl

theorem keys_restrict (m : SetMap) {l : List Symbol} (h : l.Nodup) : (m.restrict l).keys = l :=
  keys_foldl_insert m.find (m := ∅) h

end SetMap

/-! ## Steps -/

/-- A step that takes nothing away and adds no less to larger sets. -/
structure Growing {α : Type} (step : SetMap → α → SetMap) : Prop where
  grows : ∀ m a, m ≤ step m a
  mono : ∀ {m n : SetMap} a, m ≤ n → step m a ≤ step n a

namespace Growing

variable {α : Type} {step : SetMap → α → SetMap} {l : List α} {m n : SetMap}

theorem le_foldl (hs : Growing step) (l : List α) (m : SetMap) : m ≤ l.foldl step m := by
  induction l generalizing m with
  | nil => exact le_refl m
  | cons a l ih => exact le_trans (hs.grows m a) (ih (step m a))

/-- Every step of a pass is in what the pass gives, although earlier
steps of the same pass changed the sets it met. -/
theorem step_le_foldl (hs : Growing step) {a : α} (ha : a ∈ l) : step m a ≤ l.foldl step m := by
  induction l generalizing m with
  | nil => cases ha
  | cons b l ih =>
    rcases List.mem_cons.1 ha with rfl | hl
    · exact hs.le_foldl l (step m a)
    · exact le_trans (hs.mono a (hs.grows m b)) (ih hl)

/-- A pass that adds nothing leaves nothing for any of its steps. -/
theorem step_le_of_foldl_le (hs : Growing step) (h : l.foldl step m ≤ m) :
    ∀ a ∈ l, step m a ≤ m :=
  fun _ ha => le_trans (hs.step_le_foldl ha) h

theorem total_lt_foldl (hs : Growing step) (h : (l.foldl step m).total ≠ m.total) :
    m.total < (l.foldl step m).total :=
  Nat.lt_of_le_of_ne (SetMap.total_le (hs.le_foldl l m)) (Ne.symm h)

theorem find_foldl_of_total_eq (hs : Growing step) (h : (l.foldl step m).total = m.total)
    (A : Symbol) : (l.foldl step m).find A = m.find A :=
  SymbolSet.ext fun s =>
    ⟨SetMap.le_of_total_eq (hs.le_foldl l m) h A s, hs.le_foldl l m A s⟩

end Growing

theorem members_foldl_subset {α : Type} {step : SetMap → α → SetMap} {l : List α}
    {U : Finset (Symbol × Symbol)}
    (hstep : ∀ m, ∀ a ∈ l, m.members ⊆ U → (step m a).members ⊆ U) {m : SetMap}
    (hm : m.members ⊆ U) : (l.foldl step m).members ⊆ U :=
  List.foldlRecOn l step hm fun n hn a ha => hstep n a ha hn

/-! ## Repetition -/

namespace Saturation

variable {α : Type} {step : SetMap → α → SetMap} {l : List α}

theorem run_induction (step : SetMap → α → SetMap) (l : List α) (P : SetMap → Prop)
    (hstep : ∀ m, ∀ a ∈ l, P m → P (step m a)) (allowance : Nat) {m : SetMap} (hm : P m) :
    P (run (fun m => l.foldl step m) allowance m).sets := by
  have hpass : ∀ m, P m → P (l.foldl step m) := by
    intro m hm
    exact List.foldlRecOn l step hm fun n hn a ha => hstep n a ha hn
  induction allowance generalizing m with
  | zero => exact hm
  | succ allowance ih =>
    rw [run]
    split
    · exact hpass m hm
    · exact ih (hpass m hm)

/-- With more passes allowed than pairs that the steps can ever put into
the map, the sets at the end are closed under every step. -/
theorem run_closed (hs : Growing step) {U : Finset (Symbol × Symbol)}
    (hstep : ∀ m, ∀ a ∈ l, m.members ⊆ U → (step m a).members ⊆ U) {allowance : Nat}
    {m : SetMap} (hm : m.members ⊆ U) (enough : U.card < allowance + m.total) :
    ∀ a ∈ l, step (run (fun m => l.foldl step m) allowance m).sets a ≤
      (run (fun m => l.foldl step m) allowance m).sets := by
  induction allowance generalizing m with
  | zero =>
    have hcard := Finset.card_le_card hm
    rw [SetMap.card_members] at hcard
    omega
  | succ allowance ih =>
    have hgrow := hs.le_foldl l m
    rw [run]
    split
    · next ht =>
      have hback := SetMap.le_of_total_eq hgrow ht
      intro a ha
      -- the pass added nothing, so each of its steps has nothing to add to the same sets
      calc step (l.foldl step m) a ≤ step m a := hs.mono a hback
        _ ≤ m := hs.step_le_of_foldl_le hback a ha
        _ ≤ l.foldl step m := hgrow
    · next ht =>
      have hlt := hs.total_lt_foldl ht
      exact ih (members_foldl_subset hstep hm) (by omega)

end Saturation

end Predictive
