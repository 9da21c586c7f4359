import Predictive.Proofs.Conflict.Descent
import Predictive.Proofs.Machine.Regrowth

/-!
# How long a run can be

In an LL(1) grammar every run ends. A step that consumes a symbol, or
that replaces a nonterminal by the empty word, takes one symbol off the
stack; any other puts a right-hand side on it. Each unread symbol pays
for one descent of these others. While what is on top does not begin
with the next symbol, only the empty word can take its place; once
something that begins with it is on top, the descent goes on from there
until the symbol is consumed, and is no longer than the height it starts
from.

`expansionsLeft` counts the right-hand sides that can still come, from
what is on top and what is unread, and `Config.potential` makes of it a
number that each step lowers (`StandsOn.potential_lt`).
-/

namespace Predictive

variable {g : Grammar} {f : Symbol → SymbolSet} {s : Study} {c c' : Config} {σ : List Symbol}
  {a top : Symbol} {rest : List Symbol} {L : Nat}

/-! ## Expansions that can still come -/

namespace Grammar

/-- How many right-hand sides, other than the empty word, can still come
on the stack. -/
noncomputable def expansionsLeft (g : Grammar) (f : Symbol → SymbolSet) (top : Symbol) :
    List Symbol → Nat
  | [] => 0
  | a :: rest =>
    if a ∈ firstOfSequence f [top] ∧ a ≠ .epsilon then
      g.height f a top + g.nonterminals.length * rest.length
    else g.nonterminals.length * (rest.length + 1)

theorem expansionsLeft_le (g : Grammar) (f : Symbol → SymbolSet) (top : Symbol)
    (unread : List Symbol) :
    g.expansionsLeft f top unread ≤ g.nonterminals.length * unread.length := by
  cases unread with
  | nil => exact Nat.zero_le _
  | cons a rest =>
    rw [expansionsLeft, List.length_cons]
    split
    · have hheight := g.height_le f a top
      rw [Nat.mul_succ]
      omega
    · exact Nat.le_refl _

theorem expansionsLeft_of_begins (h : a ∈ firstOfSequence f [top]) (ha : a ≠ .epsilon) :
    g.expansionsLeft f top (a :: rest) =
      g.height f a top + g.nonterminals.length * rest.length := by
  rw [expansionsLeft, if_pos ⟨h, ha⟩]

theorem expansionsLeft_of_not_begins (h : ¬ (a ∈ firstOfSequence f [top] ∧ a ≠ .epsilon)) :
    g.expansionsLeft f top (a :: rest) = g.nonterminals.length * (rest.length + 1) := by
  rw [expansionsLeft, if_neg h]

theorem endMarker_not_mem_first (wf : g.WellFormed) {A : Symbol} (hA : g.IsKnown A) :
    .endMarker ∉ firstOfSequence (g.first ∅).sets.find [A] := by
  intro h
  rcases A.kind_cases with hn | ht | rfl
  · rw [mem_firstOfSequence_nonterminal hn] at h
    obtain ⟨ht, -⟩ := (FirstOf.of_mem_first wf A _ h).begins (by decide)
    exact wf.endMarker_not_isKnown (Or.inr ht)
  · rw [mem_firstOfSequence_terminal ht] at h
    exact wf.endMarker_not_isKnown (h ▸ hA)
  · exact wf.epsilon_not_isKnown hA

end Grammar

/-! ## Steps -/

namespace Config

open Grammar

/-- How many right-hand sides can still come on the stack of a
configuration. -/
noncomputable def expansionsLeft (g : Grammar) (f : Symbol → SymbolSet) (c : Config) : Nat :=
  g.expansionsLeft f (c.stack.headD .endMarker) c.unread

/-- The size of the stack, and what can still come on it. -/
noncomputable def potential (g : Grammar) (f : Symbol → SymbolSet) (L : Nat) (c : Config) : Nat :=
  c.stack.length + L * c.expansionsLeft g f

theorem potential_lt_of_le (hstack : c'.stack.length < c.stack.length)
    (hleft : c'.expansionsLeft g f ≤ c.expansionsLeft g f) :
    c'.potential g f L < c.potential g f L :=
  Nat.add_lt_add_of_lt_of_le hstack (Nat.mul_le_mul_left L hleft)

theorem potential_lt_of_lt (hstack : c'.stack.length < c.stack.length + L)
    (hleft : c'.expansionsLeft g f < c.expansionsLeft g f) :
    c'.potential g f L < c.potential g f L := by
  have hmul := Nat.mul_le_mul_left L hleft
  rw [Nat.mul_succ] at hmul
  unfold potential
  omega

namespace StandsOn

/-- A terminal that is next has no height: what is left is for the
symbols behind it. -/
theorem expansionsLeft_consume (wf : g.WellFormed) (h : StandsOn g (a :: σ) c)
    (ha : a.isTerminal) (hunread : c.unread = a :: rest) :
    c.expansionsLeft g f = g.nonterminals.length * rest.length := by
  obtain ⟨hn, hε⟩ := Symbol.isTerminal_iff.1 ha
  unfold expansionsLeft
  rw [h.stack, hunread]
  exact (expansionsLeft_of_begins ((mem_firstOfSequence_terminal ha).2 rfl) hε).trans
    (by rw [height_of_terminal wf hn, Nat.zero_add])

section Expand

variable (wf : g.WellFormed) (hs : s.IsOf g)
  (hsep : g.Separated s.first.sets.find s.follow.sets.find) {p : Production}
include wf hs hsep

/-- A nonterminal that is replaced by the empty word does not begin with
the next symbol. -/
theorem expansionsLeft_vanish (h : StandsOn g (p.lhs :: σ) c) (hε : p.isEpsilon)
    (hp : s.table.get? p.lhs c.lookahead = some p) :
    c.expansionsLeft g s.first.sets.find = g.nonterminals.length * c.unread.length := by
  obtain ⟨mem, -, hcolumn⟩ := hs.mem_of_get? wf hp
  rw [lookahead] at hcolumn
  unfold expansionsLeft
  rw [h.stack]
  cases hunread : c.unread with
  | nil => rfl
  | cons a rest =>
    rw [hunread] at hcolumn
    refine expansionsLeft_of_not_begins ?_
    rintro ⟨hbegins, ha⟩
    have hbegins := (mem_firstOfSequence_nonterminal (wf.lhs_isNonterminal mem)).1 hbegins
    exact ha (hsep.eq_epsilon (hs.firstClosed wf) mem hε hcolumn hbegins)

/-- A nonterminal that is replaced by another right-hand side descends to
the first symbol of it. -/
theorem expansionsLeft_descend (h : StandsOn g (p.lhs :: σ) c)
    (h' : StandsOn g (p.expansion ++ σ) c') (hunread : c'.unread = c.unread)
    (hε : p.isEpsilon = false) (hp : s.table.get? p.lhs c.lookahead = some p) :
    c'.expansionsLeft g s.first.sets.find < c.expansionsLeft g s.first.sets.find := by
  obtain ⟨mem, -, hcolumn⟩ := hs.mem_of_get? wf hp
  obtain ⟨head, body, hrhs⟩ := List.exists_cons_of_ne_nil (wf.normal p mem).ne_nil
  obtain ⟨hbegins, ha⟩ := (wf.mem_columns mem hε hrhs).1 hcolumn
  rw [Production.expansion, hε, if_neg Bool.false_ne_true, hrhs] at h'
  rw [lookahead] at hbegins ha
  unfold expansionsLeft
  rw [h.stack, h'.stack, hunread]
  cases hread : c.unread with
  | nil =>
    rw [hread, hs.first] at hbegins
    exact absurd hbegins (endMarker_not_mem_first wf (h'.known head (List.mem_cons_self ..)))
  | cons a rest =>
    rw [hread, List.headD_cons] at hbegins ha
    have hdescends : g.Descends s.first.sets.find a head p.lhs :=
      ⟨p, mem, rfl, by rw [hrhs]; rfl, hbegins⟩
    have hfirst : a ∈ firstOfSequence s.first.sets.find [p.lhs] :=
      (mem_firstOfSequence_nonterminal (wf.lhs_isNonterminal mem)).2
        (hdescends.leftCorner.mem_first (hs.firstClosed wf) ha)
    have hwf : WellFounded (g.Descends s.first.sets.find a) := by
      have hn := hs.followClosed wf
      rw [hs.first] at hsep hn ⊢
      exact hsep.wellFounded_descends wf hn ha
    have hlt := height_lt hwf hdescends
    show g.expansionsLeft _ head (a :: rest) < g.expansionsLeft _ p.lhs (a :: rest)
    rw [expansionsLeft_of_begins hbegins ha, expansionsLeft_of_begins hfirst ha]
    omega

theorem potential_lt (hL : ∀ p ∈ g.productions, p.rhs.length ≤ L) (h : StandsOn g σ c)
    (hnext : c.next? s.table = some c') :
    c'.potential g s.first.sets.find L < c.potential g s.first.sets.find L := by
  have hleft := g.expansionsLeft_le s.first.sets.find (c'.stack.headD .endMarker) c'.unread
  rcases h.next wf (hs.table_isOf wf) hnext with
    ⟨a, σ', ha, rfl, hunread, -, h'⟩ | ⟨p, mem, σ', rfl, hp, hunread, -, h'⟩
  · refine potential_lt_of_le (by rw [h.stack, h'.stack]; exact Nat.lt_succ_self _) ?_
    rwa [h.expansionsLeft_consume wf ha hunread]
  · cases hε : p.isEpsilon with
    | true =>
      have hstack : c'.stack.length < c.stack.length := by
        rw [h.stack, h'.stack, Production.expansion, if_pos hε]
        exact Nat.lt_succ_self _
      refine potential_lt_of_le hstack ?_
      rwa [h.expansionsLeft_vanish wf hs hsep hε hp, ← hunread]
    | false =>
      refine potential_lt_of_lt ?_ (h.expansionsLeft_descend wf hs hsep h' hunread hε hp)
      have hlength := hL p mem
      rw [h.stack, h'.stack, Production.expansion, hε, if_neg Bool.false_ne_true]
      simp only [List.length_append, List.length_cons]
      omega

end Expand

end StandsOn

end Config

/-! ## Runs -/

namespace Study.IsOf

open Config

/-- Every run of an LL(1) grammar ends, after no more steps than the
length of the text and the size of the grammar allow. -/
theorem exists_reaches_end (wf : g.WellFormed) (hs : s.IsOf g) (hll1 : s.isLL1)
    (hL : ∀ p ∈ g.productions, p.rhs.length ≤ L) (input : List Symbol) :
    ∃ k c', Reaches s.table k (initial g.start input) c' ∧ c'.next? s.table = none ∧
      k + 1 ≤ 2 + L * (g.nonterminals.length * input.length) := by
  have hsep := (hs.isLL1_iff wf).1 hll1
  have hstep : ∀ c c', (∃ σ, StandsOn g σ c) → c.next? s.table = some c' →
      (∃ σ, StandsOn g σ c') ∧
        c'.potential g s.first.sets.find L < c.potential g s.first.sets.find L := by
    rintro c c' ⟨σ, h⟩ hnext
    refine ⟨?_, h.potential_lt wf hs hsep hL hnext⟩
    rcases h.next wf (hs.table_isOf wf) hnext with
      ⟨_, σ', -, -, -, -, h'⟩ | ⟨p, -, σ', -, -, -, -, h'⟩
    · exact ⟨σ', h'⟩
    · exact ⟨_, h'⟩
  obtain ⟨k, c', hreach, hend, ⟨σ, h⟩, hk⟩ :=
    exists_reaches_of_lt hstep ⟨_, StandsOn.initial wf input⟩
  have hlast : 1 ≤ c'.potential g s.first.sets.find L := by
    rw [potential, h.stack, List.length_append]
    exact Nat.le_add_right_of_le (Nat.le_add_left 1 σ.length)
  have hfirst := g.expansionsLeft_le s.first.sets.find g.start input
  have hmul := Nat.mul_le_mul_left L hfirst
  have hinitial : (initial g.start input).potential g s.first.sets.find L =
      2 + L * g.expansionsLeft s.first.sets.find g.start input := rfl
  exact ⟨k, c', hreach, hend, by omega⟩

theorem parse_ends (wf : g.WellFormed) (hs : s.IsOf g) (hll1 : s.isLL1)
    (hL : ∀ p ∈ g.productions, p.rhs.length ≤ L) (text : Text) :
    (s.parse text).ending ≠ .unfinished ∧ (s.parse text).steps.length ≤
      2 + L * (g.nonterminals.length * (Text.unblank text).length) := by
  obtain ⟨k, c', hreach, hend, hk⟩ :=
    hs.exists_reaches_end wf hll1 hL (symbolsOf (Text.unblank text))
  have hlt := hreach.lt_allowance hend
  obtain ⟨hending, hlength⟩ := hreach.length_steps_run hend hlt
  rw [symbolsOf, List.length_map] at hk
  rw [Study.parse, hs.grammar]
  exact ⟨hending, hlength.trans hk⟩

theorem ending_parse_ne_unfinished (wf : g.WellFormed) (hs : s.IsOf g) (hll1 : s.isLL1)
    (text : Text) : (s.parse text).ending ≠ .unfinished := by
  have hL : ∀ p ∈ g.productions,
      p.rhs.length ≤ (g.productions.map (·.rhs.length)).foldl max 0 := by
    intro p mem
    exact ParsingTable.le_foldl_max (Or.inr (List.mem_map.2 ⟨p, mem, rfl⟩))
  exact (hs.parse_ends wf hll1 hL text).1

end Study.IsOf

end Predictive
