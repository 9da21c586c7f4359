import Predictive.Proofs.Conflict.Descent
import Predictive.Proofs.Study

/-!
# Left recursion

A nonterminal is left-recursive when it derives, in at least one step, a
form that begins with itself; it does not matter through how many other
nonterminals, nor what vanished in front of it on the way. No check of
the analysis looks for this, yet a left-recursive nonterminal with which
some form begins in a terminal is never part of an LL(1) grammar
(`not_isLL1_of_left_recursion`).

A derivation that brings a symbol to the front goes down to it from left
corner to left corner (`Derives.leadsDown`), so one that brings a
nonterminal back to the front goes down from it to itself. In a separated
grammar there is no such way.
-/

namespace Predictive

namespace Grammar

open Relation (ReflTransGen TransGen)

variable {g : Grammar} {f n : Symbol → SymbolSet} {a A B : Symbol} {l k rest : List Symbol}

/-- One of the symbols leads down to `B`, and those before it vanish. -/
def LeadsDown (g : Grammar) (f : Symbol → SymbolSet) (a B : Symbol) (l : List Symbol) : Prop :=
  ∃ before X after, l = before ++ X :: after ∧ g.Vanishes before ∧ a ∈ firstOfSequence f [X] ∧
    ReflTransGen (g.LeftCorner f a) B X

theorem LeadsDown.leftCorner (wf : g.WellFormed) (hf : g.FirstClosed f) {p : Production}
    (mem : p ∈ g.productions) (h : g.LeadsDown f a B p.expansion) :
    TransGen (g.LeftCorner f a) B p.lhs := by
  obtain ⟨before, X, after, hexpand, hbefore, hX, hB⟩ := h
  refine TransGen.tail' hB ⟨p, mem, rfl, hX, before, after, rhs_of_expansion hexpand, ?_⟩
  exact hf.epsilon_mem wf hbefore

theorem LeadsDown.of_produces (wf : g.WellFormed) (hf : g.FirstClosed f) (ha : a ≠ .epsilon)
    (h : g.Produces l k) (hk : g.LeadsDown f a B k) : g.LeadsDown f a B l := by
  obtain ⟨u, v, p, mem⟩ := h
  obtain ⟨before, X, after, hform, hbefore, hX, hB⟩ := hk
  rcases occurrence_append hform with ⟨m, hue, rfl⟩ | ⟨m, rfl, rfl⟩
  · rcases occurrence_append hue with ⟨m', rfl, rfl⟩ | ⟨m', rfl, hexpand⟩
    · -- it stands before the place of the step
      exact ⟨before, X, m' ++ p.lhs :: v, by simp, hbefore, hX, hB⟩
    · -- it came in with the step
      obtain ⟨hu, hm'⟩ := vanishes_append.1 hbefore
      have hdown : g.LeadsDown f a B p.expansion := ⟨m', X, m, hexpand, hm', hX, hB⟩
      have hlhs := hdown.leftCorner wf hf mem
      obtain ⟨Y, -, hlast⟩ := TransGen.tail'_iff.1 hlhs
      refine ⟨u, p.lhs, v, rfl, hu, ?_, hlhs.to_reflTransGen⟩
      exact (mem_firstOfSequence_nonterminal (wf.lhs_isNonterminal mem)).2
        (LeftCorner.mem_first hf ha hlast)
  · -- it stands behind the place of the step
    obtain ⟨hue, hm⟩ := vanishes_append.1 hbefore
    obtain ⟨hu, he⟩ := vanishes_append.1 hue
    have hlhs : g.Vanishes [p.lhs] := (Derives.of_mem mem).trans he
    refine ⟨u ++ p.lhs :: m, X, after, by simp, ?_, hX, hB⟩
    exact hu.append (vanishes_append.2 ⟨hlhs, hm⟩)

/-- A derivation that brings a symbol to the front leads down to it. -/
theorem Derives.leadsDown (wf : g.WellFormed) (hf : g.FirstClosed f) (ha : a ≠ .epsilon)
    (h : g.Derives l (B :: rest)) (hB : a ∈ firstOfSequence f [B]) : g.LeadsDown f a B l := by
  generalize hk : B :: rest = k at h
  induction h with
  | refl => exact ⟨[], B, rest, hk.symm, .nil, hB, .refl⟩
  | head step _ ih => exact (ih hk).of_produces wf hf ha step

/-- In a separated grammar no nonterminal that begins with a symbol comes
back to the front of what it derives. -/
theorem Separated.not_left_recursive (wf : g.WellFormed)
    (hn : g.FollowClosed (g.first ∅).sets.find n) (hsep : g.Separated (g.first ∅).sets.find n)
    (ha : a ≠ .epsilon) (hA : a ∈ (g.first ∅).sets.find A) (hstep : g.Produces [A] l) :
    ¬ g.Derives l (A :: rest) := by
  intro hd
  have hf := firstClosed_first wf ∅
  generalize hform : [A] = form at hstep
  obtain ⟨before, after, p, mem⟩ := hstep
  obtain ⟨rfl, hlhs⟩ := List.append_eq_singleton_iff.1 hform.symm |>.resolve_right (by simp)
  obtain ⟨rfl, rfl⟩ := List.cons.inj hlhs
  rw [List.nil_append, List.append_nil] at hd
  have hbegins := (mem_firstOfSequence_nonterminal (wf.lhs_isNonterminal mem)).2 hA
  have hcycle := (hd.leadsDown wf hf ha hbegins).leftCorner wf hf mem
  exact (hsep.wellFounded_leftCorner wf hn ha).transGen.asymmetric _ _ hcycle hcycle

/-! ## The law of left recursion -/

variable {pairs : List (Text × List Text)}

/-- A nonterminal that derives a form beginning with itself, and a form
beginning with a terminal, makes a grammar not LL(1). -/
theorem not_isLL1_of_left_recursion (h : load pairs = .ok g) :
    ∃ s, g.study = .ok s ∧ ∀ A ∈ g.nonterminals,
      (∃ l γ, g.Produces [A] l ∧ g.Derives l (A :: γ)) →
      (∃ t δ, t.isTerminal ∧ g.Derives [A] (t :: δ)) → s.isLL1 = false := by
  have wf := wellFormed_of_load h
  obtain ⟨s, hs, hof⟩ := exists_study wf
  refine ⟨s, hs, ?_⟩
  rintro A hA ⟨l, γ, hstep, hback⟩ ⟨t, δ, ht, hbegins⟩
  have hn := hof.followClosed wf
  rw [Bool.eq_false_iff]
  intro hll1
  have hsep := (hof.isLL1_iff wf).1 hll1
  rw [hof.first] at hn hsep
  have hfirst := (firstClosed_first wf ∅).mem_of_begins wf ht ⟨δ, hbegins⟩
  rw [mem_firstOfSequence_nonterminal (wf.head_nonterminal A hA)] at hfirst
  exact hsep.not_left_recursive wf hn (Symbol.isTerminal_iff.1 ht).2 hfirst hstep hback

/-- A nonterminal that comes back behind another which vanishes in two
steps. -/
theorem not_isLL1_of_left_recursion_of_hidden :
    ∃ g s, load [("S", ["ASa", "b"]), ("A", ["B"]), ("B", ["ε"])] = .ok g ∧ g.study = .ok s ∧
      (∃ l γ, g.Produces [.single 'S'] l ∧ g.Derives l (.single 'S' :: γ)) ∧
      (∃ t δ, t.isTerminal ∧ g.Derives [.single 'S'] (t :: δ)) ∧ s.isLL1 = false := by
  obtain ⟨g, h⟩ : ∃ g, load [("S", ["ASa", "b"]), ("A", ["B"]), ("B", ["ε"])] = .ok g := ⟨_, rfl⟩
  obtain ⟨s, hs, hlaw⟩ := not_isLL1_of_left_recursion h
  have hfacts : (g.nonterminals, g.productions) = ([.single 'S', .single 'A', .single 'B'],
      [⟨.single 'S', [.single 'A', .single 'S', .single 'a']⟩, ⟨.single 'S', [.single 'b']⟩,
        ⟨.single 'A', [.single 'B']⟩, ⟨.single 'B', [.epsilon]⟩]) := by
    apply computed_eq h hs
    decide +kernel
  obtain ⟨hnonterminals, hproductions⟩ := Prod.mk.inj hfacts
  have hmem : ∀ p : Production, p ∈ g.productions ↔ p ∈ _ := fun p => by rw [hproductions]
  have hstep : g.Produces [.single 'S'] [.single 'A', .single 'S', .single 'a'] :=
    .intro [] [] ⟨.single 'S', [.single 'A', .single 'S', .single 'a']⟩ (by simp [hmem])
  have hvanish : g.Vanishes [.single 'A'] :=
    (Derives.of_mem (p := ⟨.single 'A', [.single 'B']⟩) (by simp [hmem])).trans
      (Derives.of_mem (p := ⟨.single 'B', [.epsilon]⟩) (by simp [hmem]))
  have hback : ∃ l γ, g.Produces [.single 'S'] l ∧ g.Derives l (.single 'S' :: γ) :=
    ⟨_, [.single 'a'], hstep, hvanish.append_right [.single 'S', .single 'a']⟩
  have hbegins : ∃ t δ, t.isTerminal ∧ g.Derives [.single 'S'] (t :: δ) :=
    ⟨.single 'b', [], by decide,
      Derives.of_mem (p := ⟨.single 'S', [.single 'b']⟩) (by simp [hmem])⟩
  exact ⟨g, s, h, hs, hback, hbegins, hlaw _ (by simp [hnonterminals]) hback hbegins⟩

end Grammar

end Predictive
