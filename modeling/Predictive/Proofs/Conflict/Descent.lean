import Mathlib.Data.Finset.Card
import Mathlib.Logic.Relation
import Predictive.Proofs.Sets.Follow
import Predictive.Proofs.Conflict.Search

/-!
# Descents at one symbol

While the next symbol stays the same, the machine replaces a nonterminal
by a right-hand side, then the first symbol of that, and so on down.
Each nonterminal on the way begins with the next symbol, and so does the
one below it (`Descends`). A derivation may pass over symbols that vanish
as well, and go down to what stands behind them (`LeftCorner`).

The search for conflicts does not look for left recursion, but in a
grammar without conflicts no way down comes back to where it was
(`Separated.wellFounded_leftCorner`). One alternative brought the symbol
into FIRST of the nonterminal, from members of FIRST that were there
before, and it is the one alternative to go down by. The symbol came
from one place in it, and the way down leads to that place: of two
places that begin with the symbol the first would vanish before the
second, and so not begin with what follows it.

So a descent passes each nonterminal once, and the number of those that
can still be reached, the `height` of a symbol, goes down with each.
-/

namespace Predictive

namespace Grammar

variable {g : Grammar} {f n : Symbol → SymbolSet} {a A B : Symbol}

/-- An alternative of `A` has `B` in front, and `B` can begin with `a`. -/
def Descends (g : Grammar) (f : Symbol → SymbolSet) (a B A : Symbol) : Prop :=
  ∃ p ∈ g.productions, p.lhs = A ∧ p.rhs.head? = some B ∧ a ∈ firstOfSequence f [B]

/-- An alternative of `A` has `B` behind a part that can vanish, and `B`
can begin with `a`. -/
def LeftCorner (g : Grammar) (f : Symbol → SymbolSet) (a B A : Symbol) : Prop :=
  ∃ p ∈ g.productions, p.lhs = A ∧ a ∈ firstOfSequence f [B] ∧
    ∃ before after, p.rhs = before ++ B :: after ∧ .epsilon ∈ firstOfSequence f before

theorem Descends.leftCorner (h : g.Descends f a B A) : g.LeftCorner f a B A := by
  obtain ⟨p, mem, hlhs, hhead, hB⟩ := h
  obtain ⟨rest, hrhs⟩ := List.head?_eq_some_iff.1 hhead
  exact ⟨p, mem, hlhs, hB, [], rest, hrhs, SymbolSet.mem_single.2 rfl⟩

theorem mem_firstOfSequence_of_occurrence {before after : List Symbol}
    (hbefore : .epsilon ∈ firstOfSequence f before) (hB : a ∈ firstOfSequence f [B])
    (ha : a ≠ .epsilon) : a ∈ firstOfSequence f (before ++ B :: after) :=
  mem_firstOfSequence_append.2
    (Or.inr ⟨hbefore, mem_firstOfSequence_cons.2 (Or.inl ⟨hB, ha⟩)⟩)

namespace LeftCorner

theorem isNonterminal (wf : g.WellFormed) (h : g.LeftCorner f a B A) : A.isNonterminal := by
  obtain ⟨p, mem, rfl, -⟩ := h
  exact wf.lhs_isNonterminal mem

theorem mem_nonterminals (h : g.LeftCorner f a B A) : A ∈ g.nonterminals := by
  obtain ⟨p, mem, rfl, -⟩ := h
  exact lhs_mem_nonterminals mem

theorem mem_first (hf : g.FirstClosed f) (ha : a ≠ .epsilon) (h : g.LeftCorner f a B A) :
    a ∈ f A := by
  obtain ⟨p, mem, rfl, hB, before, after, hrhs, hbefore⟩ := h
  refine hf p mem a ?_
  rw [hrhs]
  exact mem_firstOfSequence_of_occurrence hbefore hB ha

end LeftCorner

theorem acc_leftCorner_of_terminal (wf : g.WellFormed) (hA : A.isNonterminal = false) :
    Acc (g.LeftCorner f a) A := by
  refine ⟨A, fun B hB => ?_⟩
  have hn := hB.isNonterminal wf
  rw [hA] at hn
  cases hn

/-! ## Descents end -/

/-- In a separated grammar, of two places in an alternative the first does
not vanish and begin with a symbol with which the second begins. -/
theorem Separated.eq_epsilon_of_occurrences (wf : g.WellFormed) (hn : g.FollowClosed f n)
    (hsep : g.Separated f n) {p : Production} (mem : p ∈ g.productions) {X : Symbol}
    {before between after : List Symbol} (hrhs : p.rhs = before ++ B :: (between ++ X :: after))
    (hvanish : .epsilon ∈ firstOfSequence f (before ++ B :: between))
    (hB : a ∈ firstOfSequence f [B]) (hX : a ∈ firstOfSequence f [X]) : a = .epsilon := by
  by_contra ha
  rw [List.append_cons, epsilon_mem_firstOfSequence_append,
    epsilon_mem_firstOfSequence_append] at hvanish
  obtain ⟨⟨-, hBε⟩, hbetween⟩ := hvanish
  rcases B.kind_cases with hk | hk | rfl
  · rw [mem_firstOfSequence_nonterminal hk] at hBε hB
    have hfollow := hn.starts p mem before B _ hrhs hk a
      (mem_firstOfSequence_of_occurrence hbetween hX ha) ha
    have hdefined := wf.defined p mem B (by simp [hrhs]) hk
    exact ha (hsep.vanishing B hdefined hBε a hB hfollow)
  · rw [mem_firstOfSequence_terminal hk] at hBε
    exact (Symbol.isTerminal_iff.1 hk).2 hBε.symm
  · exact ha (mem_firstOfSequence_epsilon.1 hB)

/-- Two places in an alternative that begin with one symbol, each behind
a part that can vanish, are the same place. -/
theorem Separated.eq_of_occurrences (wf : g.WellFormed) (hn : g.FollowClosed f n)
    (hsep : g.Separated f n) {p : Production} (mem : p ∈ g.productions) {X : Symbol}
    {before after before' after' : List Symbol} (hrhs : p.rhs = before ++ B :: after)
    (hrhs' : p.rhs = before' ++ X :: after') (hbefore : .epsilon ∈ firstOfSequence f before)
    (hbefore' : .epsilon ∈ firstOfSequence f before') (hB : a ∈ firstOfSequence f [B])
    (hX : a ∈ firstOfSequence f [X]) (ha : a ≠ .epsilon) : B = X := by
  rcases occurrence_append (hrhs'.symm.trans hrhs) with ⟨m, rfl, rfl⟩ | ⟨m, rfl, hback⟩
  · exact absurd (hsep.eq_epsilon_of_occurrences wf hn mem hrhs hbefore' hB hX) ha
  · cases m with
    | nil => exact (List.cons.inj hback).1.symm
    | cons Y m =>
      obtain ⟨rfl, rfl⟩ := List.cons.inj hback
      exact absurd (hsep.eq_epsilon_of_occurrences wf hn mem hrhs' hbefore hX hB) ha

/-- A nonterminal that begins with a symbol leads down to where the symbol
came from, and from there no further than to older members of FIRST. -/
theorem Separated.acc_leftCorner (wf : g.WellFormed) (hn : g.FollowClosed (g.first ∅).sets.find n)
    (hsep : g.Separated (g.first ∅).sets.find n) :
    ∀ A a, a ∈ (g.first ∅).sets.find A → a ≠ .epsilon →
      Acc (g.LeftCorner (g.first ∅).sets.find a) A := by
  refine first_induction_mem wf
    (R := fun A a => a ≠ .epsilon → Acc (g.LeftCorner (g.first ∅).sets.find a) A) ?_
  intro f hf p mem a ha hap hε
  refine ⟨p.lhs, fun B hB => ?_⟩
  obtain ⟨q, memq, hlhs, haB, before, after, hrhs, hbefore⟩ := hB
  -- the alternative that brought the symbol in is the only one to go down by
  obtain rfl : p = q := by
    by_contra hne
    refine hε (hsep.alternatives p mem q memq hlhs.symm hne a hap ?_)
    rw [hrhs]
    exact mem_firstOfSequence_of_occurrence hbefore haB hε
  have hmono : ∀ l, firstOfSequence f l ⊆ firstOfSequence (g.first ∅).sets.find l :=
    fun l => firstOfSequence_mono fun A _ _ x hx => (hf A x hx).1
  obtain ⟨before', X, after', hrhs', hbefore', hX⟩ := exists_split_of_mem_firstOfSequence ha hε
  obtain rfl := hsep.eq_of_occurrences wf hn mem hrhs hrhs' hbefore (hmono _ _ hbefore') haB
    (hmono _ _ hX) hε
  rcases B.kind_cases with hB | hB | rfl
  · exact (hf B a ((mem_firstOfSequence_nonterminal hB).1 hX)).2 hε
  · exact acc_leftCorner_of_terminal wf (Symbol.isTerminal_iff.1 hB).1
  · exact absurd (mem_firstOfSequence_epsilon.1 haB) hε

/-- In a separated grammar no way down goes on for ever. -/
theorem Separated.wellFounded_leftCorner (wf : g.WellFormed)
    (hn : g.FollowClosed (g.first ∅).sets.find n) (hsep : g.Separated (g.first ∅).sets.find n)
    (ha : a ≠ .epsilon) : WellFounded (g.LeftCorner (g.first ∅).sets.find a) := by
  refine ⟨fun A => ?_⟩
  by_cases hA : a ∈ (g.first ∅).sets.find A
  · exact hsep.acc_leftCorner wf hn A a hA ha
  · exact ⟨A, fun B hB => absurd (hB.mem_first (firstClosed_first wf ∅) ha) hA⟩

theorem Separated.wellFounded_descends (wf : g.WellFormed)
    (hn : g.FollowClosed (g.first ∅).sets.find n) (hsep : g.Separated (g.first ∅).sets.find n)
    (ha : a ≠ .epsilon) : WellFounded (g.Descends (g.first ∅).sets.find a) :=
  Subrelation.wf Descends.leftCorner (hsep.wellFounded_leftCorner wf hn ha)

/-! ## Heights -/

open Classical in
/-- The nonterminals that can be met on the way down from a symbol, with
the symbol itself. -/
noncomputable def below (g : Grammar) (f : Symbol → SymbolSet) (a A : Symbol) : Finset Symbol :=
  g.nonterminals.toFinset.filter fun B => Relation.ReflTransGen (g.Descends f a) B A

theorem mem_below :
    B ∈ g.below f a A ↔ B ∈ g.nonterminals ∧ Relation.ReflTransGen (g.Descends f a) B A := by
  simp [below]

/-- How many nonterminals a descent can still meet. -/
noncomputable def height (g : Grammar) (f : Symbol → SymbolSet) (a A : Symbol) : Nat :=
  (g.below f a A).card

theorem height_le (g : Grammar) (f : Symbol → SymbolSet) (a A : Symbol) :
    g.height f a A ≤ g.nonterminals.length := by
  have hsub : g.below f a A ⊆ g.nonterminals.toFinset :=
    fun B hB => List.mem_toFinset.2 (mem_below.1 hB).1
  exact (Finset.card_le_card hsub).trans (List.toFinset_card_le _)

theorem height_of_terminal (wf : g.WellFormed) (hA : A.isNonterminal = false) :
    g.height f a A = 0 := by
  rw [height, Finset.card_eq_zero, Finset.eq_empty_iff_forall_notMem]
  intro B hB
  obtain ⟨hB, hreach⟩ := mem_below.1 hB
  have hBn := wf.head_nonterminal B hB
  rcases hreach.cases_tail with rfl | ⟨C, -, hstep⟩
  · rw [hA] at hBn
    cases hBn
  · have hAn := hstep.leftCorner.isNonterminal wf
    rw [hA] at hAn
    cases hAn

theorem height_lt (hwf : WellFounded (g.Descends f a)) (h : g.Descends f a B A) :
    g.height f a B < g.height f a A := by
  have hsub : g.below f a B ⊆ g.below f a A := by
    intro C hC
    obtain ⟨hC, hreach⟩ := mem_below.1 hC
    exact mem_below.2 ⟨hC, hreach.tail h⟩
  have hA : A ∈ g.below f a A := mem_below.2 ⟨h.leftCorner.mem_nonterminals, .refl⟩
  have hAB : A ∉ g.below f a B := by
    intro hA
    have hcycle := Relation.TransGen.tail' (mem_below.1 hA).2 h
    exact hwf.transGen.asymmetric _ _ hcycle hcycle
  exact Finset.card_lt_card ((Finset.ssubset_iff_of_subset hsub).2 ⟨A, hA, hAB⟩)

end Grammar

end Predictive
