import Predictive.Grammar.Derivation

/-!
# What a sequence derives

The facts about derivations that the set computations are measured
against: which sequences can vanish (`Vanishes`), with which symbol
what they derive can begin (`Begins`), and how a derivation of two
sequences side by side comes apart into one of each (`Derives.split`).

A symbol that is no left-hand side is inert (`Derives.inert`), and a
derivation from symbols of the grammar stays among them
(`Derives.isKnown`); together they keep the end marker out of every
sentential form.
-/

namespace Predictive

namespace Grammar

variable {g : Grammar} {l k : List Symbol} {t : Symbol}

/-! ## Vanishing and beginning -/

/-- The sequence derives the empty word. -/
def Vanishes (g : Grammar) (l : List Symbol) : Prop := g.Derives l []

/-- The sequence derives one that begins with `t`. -/
def Begins (g : Grammar) (l : List Symbol) (t : Symbol) : Prop :=
  ∃ rest, g.Derives l (t :: rest)

/-- No right-hand side begins with a nonterminal that can vanish. -/
def HeadsStay (g : Grammar) : Prop :=
  ∀ p ∈ g.productions, ∀ X ∈ p.rhs.head?, X.isNonterminal → ¬ g.Vanishes [X]

theorem Vanishes.nil : g.Vanishes [] := .refl []

theorem Vanishes.append (h : g.Vanishes l) (h' : g.Vanishes k) : g.Vanishes (l ++ k) :=
  Derives.append h h'

theorem Begins.cons (t : Symbol) (l : List Symbol) : g.Begins (t :: l) t := ⟨l, .refl _⟩

theorem Begins.append (h : g.Begins l t) (k : List Symbol) : g.Begins (l ++ k) t := by
  obtain ⟨rest, hd⟩ := h
  exact ⟨rest ++ k, hd.append_right k⟩

theorem Vanishes.begins_append (h : g.Vanishes l) (h' : g.Begins k t) : g.Begins (l ++ k) t := by
  obtain ⟨rest, hd⟩ := h'
  exact ⟨rest, Derives.append h hd⟩

/-! ## Taking derivations apart -/

theorem occurrence_append {l₁ l₂ before after : List Symbol}
    (h : l₁ ++ l₂ = before ++ t :: after) :
    (∃ m, l₁ = before ++ t :: m ∧ after = m ++ l₂) ∨
      (∃ m, before = l₁ ++ m ∧ l₂ = m ++ t :: after) := by
  rcases List.append_eq_append_iff.1 h with ⟨m, hbefore, hl₂⟩ | ⟨m, hl₁, hrest⟩
  · exact Or.inr ⟨m, hbefore, hl₂⟩
  · cases m with
    | nil => exact Or.inr ⟨[], by simpa using hl₁.symm, by simpa using hrest.symm⟩
    | cons s m =>
      obtain ⟨rfl, rfl⟩ := List.cons.inj hrest
      exact Or.inl ⟨m, hl₁, rfl⟩

theorem Produces.split {l₁ l₂ k : List Symbol} (h : g.Produces (l₁ ++ l₂) k) :
    (∃ k₁, g.Produces l₁ k₁ ∧ k = k₁ ++ l₂) ∨ (∃ k₂, g.Produces l₂ k₂ ∧ k = l₁ ++ k₂) := by
  generalize hl : l₁ ++ l₂ = l at h
  obtain ⟨before, after, p, mem⟩ := h
  rcases occurrence_append hl with ⟨m, rfl, rfl⟩ | ⟨m, rfl, rfl⟩
  · exact Or.inl ⟨before ++ p.expansion ++ m, .intro before m p mem, by simp⟩
  · exact Or.inr ⟨m ++ p.expansion ++ after, .intro m after p mem, by simp⟩

theorem Derives.split {l₁ l₂ k : List Symbol} (h : g.Derives (l₁ ++ l₂) k) :
    ∃ k₁ k₂, k = k₁ ++ k₂ ∧ g.Derives l₁ k₁ ∧ g.Derives l₂ k₂ := by
  generalize hl : l₁ ++ l₂ = l at h
  induction h generalizing l₁ l₂ with
  | refl => exact ⟨l₁, l₂, hl.symm, .refl _, .refl _⟩
  | head step _ ih =>
    subst hl
    rcases step.split with ⟨m, hm, rfl⟩ | ⟨m, hm, rfl⟩
    · obtain ⟨k₁, k₂, hk, h₁, h₂⟩ := ih rfl
      exact ⟨k₁, k₂, hk, .head hm h₁, h₂⟩
    · obtain ⟨k₁, k₂, hk, h₁, h₂⟩ := ih rfl
      exact ⟨k₁, k₂, hk, h₁, .head hm h₂⟩

theorem vanishes_append : g.Vanishes (l ++ k) ↔ g.Vanishes l ∧ g.Vanishes k := by
  refine ⟨fun h => ?_, fun h => h.1.append h.2⟩
  obtain ⟨l', k', hnil, hl, hk⟩ := Derives.split h
  obtain ⟨rfl, rfl⟩ := List.append_eq_nil_iff.1 hnil.symm
  exact ⟨hl, hk⟩

/-- A derivation goes on inside what it has come to. -/
theorem Derives.replace {e before after : List Symbol} (h : g.Derives l (before ++ k ++ after))
    (hk : g.Derives k e) : g.Derives l (before ++ e ++ after) :=
  h.trans ((hk.append_left before).append_right after)

/-- A sequence without left-hand sides derives nothing but itself. -/
theorem Derives.inert (h : g.Derives l k) (hl : ∀ p ∈ g.productions, p.lhs ∉ l) : k = l := by
  cases h with
  | refl => rfl
  | head step _ =>
    obtain ⟨before, after, p, mem⟩ := step
    exact absurd (by simp) (hl p mem)

theorem rhs_of_expansion {p : Production} {before after : List Symbol}
    (h : p.expansion = before ++ t :: after) : p.rhs = before ++ t :: after := by
  rw [Production.expansion] at h
  split at h
  · simp at h
  · exact h

/-! ## Symbols of the grammar -/

/-- The symbol is one of the grammar's nonterminals or terminals. -/
def IsKnown (g : Grammar) (s : Symbol) : Prop := s ∈ g.nonterminals ∨ s ∈ g.terminals

theorem mem_terminals : t ∈ g.terminals ↔ t.isTerminal ∧ ∃ p ∈ g.productions, t ∈ p.rhs := by
  simp only [terminals, List.mem_eraseDups, List.mem_flatMap, List.mem_filter]
  constructor
  · rintro ⟨p, mem, ht, hk⟩
    exact ⟨hk, p, mem, ht⟩
  · rintro ⟨hk, p, mem, ht⟩
    exact ⟨p, mem, ht, hk⟩

theorem isTerminal_of_mem (h : t ∈ g.terminals) : t.isTerminal := (mem_terminals.1 h).1

theorem IsKnown.mem_nonterminals (h : g.IsKnown t) (hn : t.isNonterminal) :
    t ∈ g.nonterminals := by
  refine h.resolve_right fun ht => ?_
  rw [(Symbol.isTerminal_iff.1 (isTerminal_of_mem ht)).1] at hn
  cases hn

namespace WellFormed

theorem start_mem (wf : g.WellFormed) : g.start ∈ g.nonterminals :=
  List.mem_of_mem_head? wf.start_first

theorem lhs_isNonterminal (wf : g.WellFormed) {p : Production} (mem : p ∈ g.productions) :
    p.lhs.isNonterminal :=
  wf.head_nonterminal _ (lhs_mem_nonterminals mem)

/-- What stands on a right-hand side apart from ε is a symbol of the
grammar. -/
theorem isKnown_of_mem_rhs (wf : g.WellFormed) {p : Production} (mem : p ∈ g.productions)
    {s : Symbol} (hs : s ∈ p.rhs) (hε : s ≠ .epsilon) : g.IsKnown s := by
  by_cases hn : s.isNonterminal
  · exact Or.inl (wf.defined p mem s hs hn)
  · have ht : s.isTerminal := Symbol.isTerminal_iff.2 ⟨by simpa using hn, hε⟩
    exact Or.inr (mem_terminals.2 ⟨ht, p, mem, hs⟩)

theorem ne_epsilon_of_mem_rhs (wf : g.WellFormed) {p : Production} (mem : p ∈ g.productions)
    (hp : p.isEpsilon = false) {s : Symbol} (hs : s ∈ p.rhs) : s ≠ .epsilon := by
  rintro rfl
  rw [Production.isEpsilon_iff.2 ((wf.normal p mem).epsilon_alone hs)] at hp
  cases hp

theorem expansion_eq_filter (wf : g.WellFormed) {p : Production} (mem : p ∈ g.productions) :
    p.expansion = p.rhs.filter (· != .epsilon) :=
  (wf.normal p mem).expansion_eq

theorem mem_expansion (wf : g.WellFormed) {p : Production} (mem : p ∈ g.productions)
    {s : Symbol} : s ∈ p.expansion ↔ s ∈ p.rhs ∧ s ≠ .epsilon := by
  rw [wf.expansion_eq_filter mem, List.mem_filter, bne_iff_ne]

theorem expansion_of_occurrence (wf : g.WellFormed) {p : Production} (mem : p ∈ g.productions)
    {before after : List Symbol} (hrhs : p.rhs = before ++ t :: after) (ht : t.isNonterminal) :
    p.expansion = before ++ t :: after ∧ after.filter (· != .epsilon) = after := by
  have hε : ∀ s ∈ p.rhs, s != .epsilon := by
    intro s hs
    rw [bne_iff_ne]
    rintro rfl
    have hmem : t ∈ p.rhs := by simp [hrhs]
    rw [(wf.normal p mem).epsilon_alone hs, List.mem_singleton] at hmem
    exact Symbol.ne_epsilon_of_isNonterminal ht hmem
  constructor
  · rw [wf.expansion_eq_filter mem, ← hrhs, List.filter_eq_self.2 hε]
  · exact List.filter_eq_self.2 fun s hs => hε s (by simp [hrhs, hs])

theorem endMarker_not_isKnown (wf : g.WellFormed) : ¬ g.IsKnown .endMarker := by
  rintro (hn | ht)
  · have := wf.head_nonterminal _ hn
    simp at this
  · obtain ⟨-, p, mem, hp⟩ := mem_terminals.1 ht
    exact (wf.normal p mem).no_endMarker hp

theorem epsilon_not_isKnown (wf : g.WellFormed) : ¬ g.IsKnown .epsilon := by
  rintro (hn | ht)
  · have := wf.head_nonterminal _ hn
    simp at this
  · exact (Symbol.isTerminal_iff.1 (isTerminal_of_mem ht)).2 rfl

theorem lhs_ne_of_terminal (wf : g.WellFormed) {p : Production} (mem : p ∈ g.productions)
    (ht : t.isNonterminal = false) : p.lhs ≠ t := by
  rintro rfl
  have := wf.lhs_isNonterminal mem
  rw [ht] at this
  cases this

end WellFormed

theorem Produces.isKnown (wf : g.WellFormed) (h : g.Produces l k) (hl : ∀ s ∈ l, g.IsKnown s) :
    ∀ s ∈ k, g.IsKnown s := by
  obtain ⟨before, after, p, mem⟩ := h
  intro s hs
  simp only [List.mem_append] at hs
  rcases hs with (hb | he) | ha
  · exact hl s (by simp [hb])
  · obtain ⟨hr, hε⟩ := (wf.mem_expansion mem).1 he
    exact wf.isKnown_of_mem_rhs mem hr hε
  · exact hl s (by simp [ha])

theorem Derives.isKnown (wf : g.WellFormed) (h : g.Derives l k) (hl : ∀ s ∈ l, g.IsKnown s) :
    ∀ s ∈ k, g.IsKnown s := by
  induction h with
  | refl => exact hl
  | head step _ ih => exact ih (step.isKnown wf hl)

/-- Sentential forms are made of symbols of the grammar. -/
theorem Derives.isKnown_of_start (wf : g.WellFormed) (h : g.Derives [g.start] k) :
    ∀ s ∈ k, g.IsKnown s :=
  h.isKnown wf fun _ hs => Or.inl (List.mem_singleton.1 hs ▸ wf.start_mem)

end Grammar

end Predictive
