import Predictive.Sets.First
import Predictive.Proofs.Derivation

/-!
# Laws of FIRST of a sequence

`firstOfSequence` scans a sequence and leaves it at one of three exits.
`mem_firstOfSequence_append` says in one law what the scan computes: a
symbol other than ε comes from the part before the cut, or from the
part behind it when the part before can vanish. Everything else about
the scan - that a larger map gives a larger set, that an ε standing in
the sequence makes no difference, that only symbols of the sequence or
of the sets it meets come out - is an induction over that law.

Over a finished map the scan succeeds when the map has a set for every
nonterminal it can meet (`SetMap.firstOfSequence_eq`).
-/

namespace Predictive

variable {f f' : Symbol → SymbolSet} {l k : List Symbol} {s x : Symbol}

/-! ## One symbol -/

theorem mem_firstOfSequence_epsilon : x ∈ firstOfSequence f [.epsilon] ↔ x = .epsilon := by
  simp [firstOfSequence]

theorem mem_firstOfSequence_nonterminal (hs : s.isNonterminal) :
    x ∈ firstOfSequence f [s] ↔ x ∈ f s := by
  have hne := Symbol.ne_epsilon_of_isNonterminal hs
  simp only [firstOfSequence, if_neg hne, hs, if_true]
  split
  · next hε =>
    simp only [SymbolSet.mem_union, SymbolSet.mem_erase, SymbolSet.mem_single]
    constructor
    · rintro (h | rfl)
      · exact h.1
      · exact hε
    · intro h
      by_cases hx : x = .epsilon
      · exact Or.inr hx
      · exact Or.inl ⟨h, hx⟩
  · exact Iff.rfl

theorem mem_firstOfSequence_terminal (hs : s.isTerminal) :
    x ∈ firstOfSequence f [s] ↔ x = s := by
  obtain ⟨hn, hε⟩ := Symbol.isTerminal_iff.1 hs
  simp [firstOfSequence, hε, hn]

theorem Symbol.kind_cases (s : Symbol) : s.isNonterminal ∨ s.isTerminal ∨ s = .epsilon := by
  by_cases hn : s.isNonterminal
  · exact Or.inl hn
  · by_cases hε : s = .epsilon
    · exact Or.inr (Or.inr hε)
    · exact Or.inr (Or.inl (isTerminal_iff.2 ⟨by simpa using hn, hε⟩))

/-! ## Putting sequences together -/

/-- The first symbol decides; the rest counts when it can vanish. -/
theorem mem_firstOfSequence_cons :
    x ∈ firstOfSequence f (s :: l) ↔
      (x ∈ firstOfSequence f [s] ∧ x ≠ .epsilon) ∨
        (.epsilon ∈ firstOfSequence f [s] ∧ x ∈ firstOfSequence f l) := by
  rcases s.kind_cases with hn | ht | rfl
  · rw [mem_firstOfSequence_nonterminal hn, mem_firstOfSequence_nonterminal hn, firstOfSequence,
      if_neg (Symbol.ne_epsilon_of_isNonterminal hn), if_pos hn]
    split
    · next hε => simp [hε]
    · next hε =>
      have hx : x ∈ f s → x ≠ .epsilon := fun h he => hε (he ▸ h)
      exact ⟨fun h => Or.inl ⟨h, hx h⟩, fun h => h.elim And.left fun h => absurd h.1 hε⟩
  · obtain ⟨hn, hε⟩ := Symbol.isTerminal_iff.1 ht
    rw [mem_firstOfSequence_terminal ht, mem_firstOfSequence_terminal ht, firstOfSequence,
      if_neg hε, if_neg (by simp [hn]), SymbolSet.mem_single]
    exact ⟨fun h => Or.inl ⟨h, h ▸ hε⟩, fun h => h.elim And.left fun h => absurd h.1.symm hε⟩
  · rw [firstOfSequence, if_pos rfl]
    simp [firstOfSequence]

theorem mem_firstOfSequence_append :
    x ∈ firstOfSequence f (l ++ k) ↔
      (x ∈ firstOfSequence f l ∧ x ≠ .epsilon) ∨
        (.epsilon ∈ firstOfSequence f l ∧ x ∈ firstOfSequence f k) := by
  induction l generalizing x with
  | nil => simp [firstOfSequence]
  | cons s l ih =>
    rw [List.cons_append, mem_firstOfSequence_cons, ih, mem_firstOfSequence_cons (l := l),
      mem_firstOfSequence_cons (l := l)]
    constructor
    · rintro (h | ⟨hs, h | h⟩)
      · exact Or.inl ⟨Or.inl h, h.2⟩
      · exact Or.inl ⟨Or.inr ⟨hs, h.1⟩, h.2⟩
      · exact Or.inr ⟨Or.inr ⟨hs, h.1⟩, h.2⟩
    · rintro (⟨h | h, hx⟩ | ⟨h | h, hk⟩)
      · exact Or.inl h
      · exact Or.inr ⟨h.1, Or.inl ⟨h.2, hx⟩⟩
      · exact absurd rfl h.2
      · exact Or.inr ⟨h.1, Or.inr ⟨h.2, hk⟩⟩

theorem epsilon_mem_firstOfSequence_append :
    .epsilon ∈ firstOfSequence f (l ++ k) ↔
      .epsilon ∈ firstOfSequence f l ∧ .epsilon ∈ firstOfSequence f k := by
  rw [mem_firstOfSequence_append]
  exact or_iff_right fun h => h.2 rfl

theorem firstOfSequence_mono (h : ∀ A ∈ l, A.isNonterminal → f A ⊆ f' A) :
    firstOfSequence f l ⊆ firstOfSequence f' l := by
  induction l with
  | nil => exact fun _ hx => hx
  | cons s l ih =>
    have hhead : firstOfSequence f [s] ⊆ firstOfSequence f' [s] := by
      intro x
      rcases s.kind_cases with hn | ht | rfl
      · rw [mem_firstOfSequence_nonterminal hn, mem_firstOfSequence_nonterminal hn]
        exact h s (List.mem_cons_self ..) hn x
      · rw [mem_firstOfSequence_terminal ht, mem_firstOfSequence_terminal ht]
        exact id
      · rw [mem_firstOfSequence_epsilon, mem_firstOfSequence_epsilon]
        exact id
    have htail := ih fun A hA => h A (List.mem_cons_of_mem _ hA)
    intro x hx
    rcases mem_firstOfSequence_cons.1 hx with ⟨hs, hε⟩ | ⟨hε, hl⟩
    · exact mem_firstOfSequence_cons.2 (Or.inl ⟨hhead x hs, hε⟩)
    · exact mem_firstOfSequence_cons.2 (Or.inr ⟨hhead _ hε, htail x hl⟩)

theorem firstOfSequence_congr (h : ∀ A ∈ l, A.isNonterminal → f A = f' A) :
    firstOfSequence f l = firstOfSequence f' l :=
  SymbolSet.ext fun x =>
    ⟨firstOfSequence_mono (fun A hA hn _ hx => h A hA hn ▸ hx) x,
     firstOfSequence_mono (fun A hA hn _ hx => h A hA hn ▸ hx) x⟩

theorem firstOfSequence_filter :
    firstOfSequence f (l.filter (· != .epsilon)) = firstOfSequence f l := by
  induction l with
  | nil => rfl
  | cons s l ih =>
    by_cases hε : s = .epsilon
    · rw [List.filter_cons_of_neg (by simp [hε]), ih, firstOfSequence, if_pos hε]
    · rw [List.filter_cons_of_pos (by simp [hε])]
      refine SymbolSet.ext fun x => ?_
      rw [mem_firstOfSequence_cons, mem_firstOfSequence_cons (l := l), ih]

/-- What comes out is ε, or stands in the sequence, or in the set of a
nonterminal of the sequence. -/
theorem mem_firstOfSequence_cases (h : x ∈ firstOfSequence f l) :
    x = .epsilon ∨ (x ∈ l ∧ x.isTerminal) ∨ ∃ A ∈ l, A.isNonterminal ∧ x ∈ f A := by
  induction l with
  | nil => exact Or.inl (by simpa [firstOfSequence] using h)
  | cons s l ih =>
    rcases mem_firstOfSequence_cons.1 h with ⟨hs, -⟩ | ⟨-, hl⟩
    · rcases s.kind_cases with hn | ht | rfl
      · exact Or.inr (Or.inr ⟨s, List.mem_cons_self .., hn,
          (mem_firstOfSequence_nonterminal hn).1 hs⟩)
      · obtain rfl := (mem_firstOfSequence_terminal ht).1 hs
        exact Or.inr (Or.inl ⟨List.mem_cons_self .., ht⟩)
      · exact Or.inl (mem_firstOfSequence_epsilon.1 hs)
    · rcases ih hl with h | ⟨hx, ht⟩ | ⟨A, hA, hx⟩
      · exact Or.inl h
      · exact Or.inr (Or.inl ⟨List.mem_cons_of_mem _ hx, ht⟩)
      · exact Or.inr (Or.inr ⟨A, List.mem_cons_of_mem _ hA, hx⟩)

/-- What comes out apart from ε comes from one symbol, behind a part that
can vanish. -/
theorem exists_split_of_mem_firstOfSequence (h : x ∈ firstOfSequence f l) (hx : x ≠ .epsilon) :
    ∃ before s after, l = before ++ s :: after ∧ .epsilon ∈ firstOfSequence f before ∧
      x ∈ firstOfSequence f [s] := by
  induction l with
  | nil => exact absurd (SymbolSet.mem_single.1 h) hx
  | cons s l ih =>
    rcases mem_firstOfSequence_cons.1 h with ⟨hs, -⟩ | ⟨hε, hl⟩
    · exact ⟨[], s, l, rfl, SymbolSet.mem_single.2 rfl, hs⟩
    · obtain ⟨before, s', after, rfl, hbefore, hs'⟩ := ih hl
      exact ⟨s :: before, s', after, rfl, mem_firstOfSequence_cons.2 (Or.inr ⟨hε, hbefore⟩), hs'⟩

/-! ## Finished maps -/

namespace SetMap

variable {m : SetMap}

theorem get?_of_mem {A : Symbol} (h : A ∈ m.keys) : m.get? A = some (m.find A) := by
  rw [find]
  cases hA : m.get? A with
  | none => exact absurd h (OrderedMap.get?_eq_none.1 hA)
  | some S => rfl

theorem require_of_mem {A : Symbol} (h : A ∈ m.keys) : m.require A = .ok (m.find A) := by
  rw [require, get?_of_mem h]

theorem get?_congr {m' : SetMap} (hkeys : ∀ A, A ∈ m.keys ↔ A ∈ m'.keys)
    (hfind : ∀ A ∈ m.keys, m.find A = m'.find A) (A : Symbol) : m.get? A = m'.get? A := by
  by_cases hA : A ∈ m.keys
  · rw [get?_of_mem hA, get?_of_mem ((hkeys A).1 hA), hfind A hA]
  · rw [OrderedMap.get?_eq_none.2 hA, OrderedMap.get?_eq_none.2 fun hA' => hA ((hkeys A).2 hA')]

/-- A finished map that has a set for every nonterminal of a sequence
gives the set of the sequence. -/
theorem firstOfSequence_eq (h : ∀ A ∈ l, A.isNonterminal → A ∈ m.keys) :
    m.firstOfSequence l = .ok (Predictive.firstOfSequence m.find l) := by
  induction l with
  | nil => rfl
  | cons s l ih =>
    have hl := ih fun A hA => h A (List.mem_cons_of_mem _ hA)
    simp only [firstOfSequence, Predictive.firstOfSequence]
    split
    · exact hl
    · split
      · next hn =>
        rw [require_of_mem (h s (List.mem_cons_self ..) hn)]
        split
        · next hε => cases hε
        · next here hε =>
          obtain rfl := Except.ok.inj hε
          split
          · rw [hl]; rfl
          · rfl
      · rfl

end SetMap

/-- A right-hand side of a well-formed grammar reads like what it
expands to. -/
theorem Grammar.WellFormed.firstOfSequence_expansion {g : Grammar} (wf : g.WellFormed)
    {p : Production} (mem : p ∈ g.productions) :
    firstOfSequence f p.expansion = firstOfSequence f p.rhs := by
  rw [wf.expansion_eq_filter mem, firstOfSequence_filter]

end Predictive
