import Predictive.Symbol

/-!
# Sets of symbols

A set of symbols is kept as its listing in increasing order, so two
sets with the same members are the same set (`ext`) and a set is shown
by reading the list. The operations are characterised by membership
alone: `mem_insert`, `mem_union`, `mem_inter`, `mem_erase`,
`mem_ofList`.
-/

namespace Predictive

/-- A set of symbols, listed in increasing order. -/
structure SymbolSet where
  toList : List Symbol
  sorted : toList.Pairwise (· < ·)
deriving DecidableEq

namespace SymbolSet

/-! ## Members -/

instance : Membership Symbol SymbolSet := ⟨fun S a => a ∈ S.toList⟩

theorem mem_toList {a : Symbol} {S : SymbolSet} : a ∈ S.toList ↔ a ∈ S := Iff.rfl

instance (a : Symbol) (S : SymbolSet) : Decidable (a ∈ S) :=
  inferInstanceAs (Decidable (a ∈ S.toList))

instance : EmptyCollection SymbolSet := ⟨⟨[], List.Pairwise.nil⟩⟩

instance : Inhabited SymbolSet := ⟨∅⟩

def size (S : SymbolSet) : Nat := S.toList.length

def isEmpty (S : SymbolSet) : Bool := S.toList.isEmpty

@[simp] theorem not_mem_empty (a : Symbol) : ¬ a ∈ (∅ : SymbolSet) := List.not_mem_nil

theorem sorted_ext {l l' : List Symbol} (hl : l.Pairwise (· < ·)) (hl' : l'.Pairwise (· < ·))
    (h : ∀ a, a ∈ l ↔ a ∈ l') : l = l' := by
  induction l generalizing l' with
  | nil =>
    cases l' with
    | nil => rfl
    | cons b l' => simpa using h b
  | cons a l ih =>
    cases l' with
    | nil => simpa using h a
    | cons b l' =>
      rw [List.pairwise_cons] at hl hl'
      have hab : a = b := by
        rcases List.mem_cons.1 ((h a).1 (List.mem_cons_self ..)) with e | ha
        · exact e
        · rcases List.mem_cons.1 ((h b).2 (List.mem_cons_self ..)) with e | hb
          · exact e.symm
          · exact absurd (Symbol.lt_trans (hl.1 b hb) (hl'.1 a ha)) (Symbol.lt_irrefl a)
      subst hab
      congr 1
      refine ih hl.2 hl'.2 fun c => ⟨fun hc => ?_, fun hc => ?_⟩
      · rcases List.mem_cons.1 ((h c).1 (List.mem_cons_of_mem _ hc)) with e | hc'
        · exact absurd (e ▸ hl.1 c hc) (Symbol.lt_irrefl _)
        · exact hc'
      · rcases List.mem_cons.1 ((h c).2 (List.mem_cons_of_mem _ hc)) with e | hc'
        · exact absurd (e ▸ hl'.1 c hc) (Symbol.lt_irrefl _)
        · exact hc'

theorem nodup (S : SymbolSet) : S.toList.Nodup := by
  refine List.nodup_iff_pairwise_ne.2 (S.sorted.imp fun hlt heq => ?_)
  exact Symbol.lt_irrefl _ (heq ▸ hlt)

theorem ext {S T : SymbolSet} (h : ∀ a, a ∈ S ↔ a ∈ T) : S = T := by
  obtain ⟨l, hl⟩ := S
  obtain ⟨l', hl'⟩ := T
  congr
  exact sorted_ext hl hl' h

/-! ## Adding members -/

/-- A list with a symbol put in at its place. -/
def insertSorted (a : Symbol) : List Symbol → List Symbol
  | [] => [a]
  | b :: l => if a < b then a :: b :: l else if a = b then b :: l else b :: insertSorted a l

theorem mem_insertSorted {a b : Symbol} {l : List Symbol} :
    b ∈ insertSorted a l ↔ b = a ∨ b ∈ l := by
  induction l with
  | nil => simp [insertSorted]
  | cons c l ih =>
    simp only [insertSorted]
    split
    · simp
    · split
      · next h => subst h; simp
      · simp only [List.mem_cons, ih]
        constructor <;> (rintro (h | h | h) <;> simp [h])

theorem sorted_insertSorted {a : Symbol} {l : List Symbol} (hl : l.Pairwise (· < ·)) :
    (insertSorted a l).Pairwise (· < ·) := by
  induction l with
  | nil => simp [insertSorted]
  | cons b l ih =>
    have hl' := List.pairwise_cons.1 hl
    simp only [insertSorted]
    split
    · next h =>
      refine List.pairwise_cons.2 ⟨fun c hc => ?_, hl⟩
      rcases List.mem_cons.1 hc with rfl | hc
      · exact h
      · exact Symbol.lt_trans h (hl'.1 c hc)
    · next h =>
      split
      · exact hl
      · next hne =>
        refine List.pairwise_cons.2 ⟨fun c hc => ?_, ih hl'.2⟩
        rcases mem_insertSorted.1 hc with rfl | hc
        · rcases Symbol.lt_trichotomy c b with h' | h' | h'
          · exact absurd h' h
          · exact absurd h' hne
          · exact h'
        · exact hl'.1 c hc

def insert (S : SymbolSet) (a : Symbol) : SymbolSet :=
  ⟨insertSorted a S.toList, sorted_insertSorted S.sorted⟩

@[simp] theorem mem_insert {a b : Symbol} {S : SymbolSet} : b ∈ S.insert a ↔ b = a ∨ b ∈ S :=
  mem_insertSorted

def single (a : Symbol) : SymbolSet := ⟨[a], List.pairwise_singleton ..⟩

@[simp] theorem mem_single {a b : Symbol} : b ∈ single a ↔ b = a := List.mem_singleton

def ofList (l : List Symbol) : SymbolSet := l.foldl insert ∅

theorem mem_foldl_insert {a : Symbol} {l : List Symbol} {S : SymbolSet} :
    a ∈ l.foldl insert S ↔ a ∈ S ∨ a ∈ l := by
  induction l generalizing S with
  | nil => simp
  | cons b l ih => simp only [List.foldl_cons, ih, mem_insert, List.mem_cons]; grind

@[simp] theorem mem_ofList {a : Symbol} {l : List Symbol} : a ∈ ofList l ↔ a ∈ l := by
  simp [ofList, mem_foldl_insert]

/-! ## Combining -/

instance : Union SymbolSet := ⟨fun S T => T.toList.foldl insert S⟩

@[simp] theorem mem_union {a : Symbol} {S T : SymbolSet} : a ∈ S ∪ T ↔ a ∈ S ∨ a ∈ T :=
  mem_foldl_insert

def filter (p : Symbol → Bool) (S : SymbolSet) : SymbolSet :=
  ⟨S.toList.filter p, S.sorted.filter p⟩

@[simp] theorem mem_filter {a : Symbol} {p : Symbol → Bool} {S : SymbolSet} :
    a ∈ S.filter p ↔ a ∈ S ∧ p a := List.mem_filter

instance : Inter SymbolSet := ⟨fun S T => S.filter (decide <| · ∈ T)⟩

@[simp] theorem mem_inter {a : Symbol} {S T : SymbolSet} : a ∈ S ∩ T ↔ a ∈ S ∧ a ∈ T := by
  show a ∈ S.filter _ ↔ _
  simp

def erase (S : SymbolSet) (a : Symbol) : SymbolSet := S.filter (· != a)

@[simp] theorem mem_erase {a b : Symbol} {S : SymbolSet} : b ∈ S.erase a ↔ b ∈ S ∧ b ≠ a := by
  simp [erase]

/-- Every member of the one set is in the other. -/
def Subset (S T : SymbolSet) : Prop := ∀ a, a ∈ S → a ∈ T

instance : HasSubset SymbolSet := ⟨Subset⟩

theorem isEmpty_iff {S : SymbolSet} : S.isEmpty ↔ ∀ a, ¬ a ∈ S := by
  rw [isEmpty, List.isEmpty_iff, List.eq_nil_iff_forall_not_mem]
  exact Iff.rfl

/-! ## Listing -/

/-- The members in the order in which a set is shown: the ordinary ones
in increasing order, then ε, then the end marker. -/
def display (S : SymbolSet) : List Symbol :=
  let special := [Symbol.epsilon, Symbol.endMarker].filter (decide <| · ∈ S)
  S.toList.filter (!special.contains ·) ++ special

end SymbolSet

end Predictive
