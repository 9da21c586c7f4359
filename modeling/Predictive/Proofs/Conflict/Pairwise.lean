import Predictive.Proofs.Study

/-!
# The pairwise test

The search for conflicts compares everything that a vanishing
nonterminal begins with to what follows it. The pairwise test is finer:
an alternative is compared to what follows only when *another*
alternative of the nonterminal can vanish. At one nonterminal the two
differ, since an alternative that alone can vanish may begin with what
follows.

For a whole grammar they agree (`separated_iff_pairwise`). A symbol with
which a lone vanishing alternative begins comes from a nonterminal in
it, which vanishes too and is followed by the same symbol; so the clash
is passed down, to members of FIRST that were there before, until it is
one between two alternatives.
-/

namespace Predictive

namespace Grammar

variable {g : Grammar} {f n : Symbol → SymbolSet} {t : Symbol}

/-- No two alternatives of a nonterminal begin alike, and where one can
vanish, no other begins with what follows the nonterminal. -/
structure PairwiseSeparated (g : Grammar) (f n : Symbol → SymbolSet) : Prop where
  alternatives : ∀ p ∈ g.productions, ∀ q ∈ g.productions, p.lhs = q.lhs → p ≠ q →
    ∀ t, t ∈ firstOfSequence f p.rhs → t ∈ firstOfSequence f q.rhs → t = .epsilon
  beside : ∀ p ∈ g.productions, ∀ q ∈ g.productions, p.lhs = q.lhs → p ≠ q →
    .epsilon ∈ firstOfSequence f q.rhs → ∀ t, t ∈ firstOfSequence f p.rhs → t ∈ n p.lhs →
      t = .epsilon

theorem Separated.pairwise (hf : g.FirstClosed f) (h : g.Separated f n) :
    g.PairwiseSeparated f n where
  alternatives := h.alternatives
  beside p hp q hq hlhs _ hε t ht hfollow :=
    h.vanishing p.lhs (lhs_mem_nonterminals hp) (hlhs ▸ hf q hq _ hε) t (hf p hp t ht) hfollow

/-- Under the pairwise test no vanishing nonterminal begins with what
follows it. -/
theorem PairwiseSeparated.eq_epsilon (wf : g.WellFormed)
    (hn : g.FollowClosed (g.first ∅).sets.find n)
    (h : g.PairwiseSeparated (g.first ∅).sets.find n) :
    ∀ A t, t ∈ (g.first ∅).sets.find A → .epsilon ∈ (g.first ∅).sets.find A → t ∈ n A →
      t = .epsilon := by
  refine first_induction_mem wf (R := fun A t => .epsilon ∈ (g.first ∅).sets.find A → t ∈ n A →
    t = .epsilon) ?_
  intro f hf p mem t ht htp hε hfollow
  obtain ⟨q, memq, hlhs, hq⟩ := exists_production_of_mem_first wf hε
  by_cases hpq : p = q
  · subst hpq
    by_contra hne
    obtain ⟨before, X, after, hrhs, -, hX⟩ := exists_split_of_mem_firstOfSequence ht hne
    rw [hrhs, List.append_cons, epsilon_mem_firstOfSequence_append,
      epsilon_mem_firstOfSequence_append] at hq
    obtain ⟨⟨-, hXε⟩, hafter⟩ := hq
    rcases X.kind_cases with hXn | hXt | rfl
    · rw [mem_firstOfSequence_nonterminal hXn] at hX hXε
      exact hne ((hf X t hX).2 hXε
        (hn.inherits p mem before X after hrhs hXn hafter t hfollow))
    · rw [mem_firstOfSequence_terminal hXt] at hXε
      exact (Symbol.isTerminal_iff.1 hXt).2 hXε.symm
    · exact hne (mem_firstOfSequence_epsilon.1 hX)
  · exact h.beside p mem q memq hlhs.symm hpq hq t htp hfollow

/-- The search for conflicts and the pairwise test agree about a
grammar. -/
theorem separated_iff_pairwise (wf : g.WellFormed)
    (hn : g.FollowClosed (g.first ∅).sets.find n) :
    g.Separated (g.first ∅).sets.find n ↔ g.PairwiseSeparated (g.first ∅).sets.find n :=
  ⟨fun h => h.pairwise (firstClosed_first wf ∅), fun h =>
    ⟨h.alternatives, fun A _ hε t ht hfollow => h.eq_epsilon wf hn A t ht hε hfollow⟩⟩

/-! ## The law of the verdict -/

variable {pairs : List (Text × List Text)}

/-- A grammar is LL(1) exactly when it passes the pairwise test: FIRST of
two alternatives of a nonterminal is disjoint apart from ε, and where one
can vanish, FIRST of the other is disjoint from FOLLOW of the
nonterminal. -/
theorem isLL1_iff_pairwise (h : load pairs = .ok g) :
    ∃ s, g.study = .ok s ∧
      (∀ p ∈ g.productions, s.first.sets.firstOfSequence p.rhs =
        .ok (firstOfSequence s.first.sets.find p.rhs)) ∧
      (∀ A ∈ g.nonterminals, s.follow.sets.get? A = some (s.follow.sets.find A)) ∧
      (s.isLL1 ↔ ∀ A ∈ g.nonterminals, ∀ p ∈ g.productions, ∀ q ∈ g.productions,
        p.lhs = A → q.lhs = A → p ≠ q →
          (∀ t ∈ (firstOfSequence s.first.sets.find p.rhs).erase .epsilon,
            t ∉ (firstOfSequence s.first.sets.find q.rhs).erase .epsilon) ∧
          (g.Derives q.expansion [] →
            ∀ t ∈ (firstOfSequence s.first.sets.find p.rhs).erase .epsilon,
              t ∉ s.follow.sets.find A)) := by
  have wf := wellFormed_of_load h
  obtain ⟨s, hs, hof⟩ := exists_study wf
  refine ⟨s, hs, fun p mem => ?_, fun A hA => ?_, ?_⟩
  · exact SetMap.firstOfSequence_eq fun A hA hn => hof.mem_keys_first (wf.defined p mem A hA hn)
  · exact get?_follow wf (fun _ => hof.mem_keys_first) hof.follow hA
  have hn := hof.followClosed wf
  rw [hof.isLL1_iff wf]
  rw [hof.first] at hn ⊢
  rw [separated_iff_pairwise wf hn]
  simp only [SymbolSet.mem_erase, not_and, not_not]
  constructor
  · rintro hpair A - p hp q hq rfl hlhs hne
    refine ⟨fun t ht htq => hpair.alternatives p hp q hq hlhs.symm hne t ht.1 htq,
      fun hvanish t ht hfollow => ?_⟩
    have hε := (epsilon_mem_iff_vanishes wf hq).2 hvanish
    exact ht.2 (hpair.beside p hp q hq hlhs.symm hne hε t ht.1 hfollow)
  · intro htest
    have hsides := fun p hp q hq (hlhs : p.lhs = q.lhs) (hne : p ≠ q) =>
      htest p.lhs (lhs_mem_nonterminals hp) p hp q hq rfl hlhs.symm hne
    refine ⟨fun p hp q hq hlhs hne t ht htq => ?_, fun p hp q hq hlhs hne hε t ht hfollow => ?_⟩
    · by_contra htε
      exact htε ((hsides p hp q hq hlhs hne).1 t ⟨ht, htε⟩ htq)
    · by_contra htε
      exact (hsides p hp q hq hlhs hne).2 ((epsilon_mem_iff_vanishes wf hq).1 hε) t ⟨ht, htε⟩
        hfollow

/-- A lone alternative that vanishes before what it begins with: the
search reports its nonterminal, the pairwise test only the nonterminal
below. -/
theorem isLL1_iff_pairwise_of_lone_alternative :
    ∃ g s, load [("S", ["Aa"]), ("A", ["B"]), ("B", ["a", "ε"])] = .ok g ∧ g.study = .ok s ∧
      s.conflicts.map Conflict.nonterminal = [.single 'A', .single 'B'] ∧
      (g.alternatives? (.single 'A')).map List.length = some 1 ∧
      ¬ ∀ A ∈ g.nonterminals, ∀ p ∈ g.productions, ∀ q ∈ g.productions,
        p.lhs = A → q.lhs = A → p ≠ q →
          (∀ t ∈ (firstOfSequence s.first.sets.find p.rhs).erase .epsilon,
            t ∉ (firstOfSequence s.first.sets.find q.rhs).erase .epsilon) ∧
          (g.Derives q.expansion [] →
            ∀ t ∈ (firstOfSequence s.first.sets.find p.rhs).erase .epsilon,
              t ∉ s.follow.sets.find A) := by
  obtain ⟨g, h⟩ : ∃ g, load [("S", ["Aa"]), ("A", ["B"]), ("B", ["a", "ε"])] = .ok g := ⟨_, rfl⟩
  obtain ⟨s, hs, -, -, hlaw⟩ := isLL1_iff_pairwise h
  have hconflicts : (s.isLL1, s.conflicts.map Conflict.nonterminal,
      (g.alternatives? (.single 'A')).map List.length) =
        (false, [.single 'A', .single 'B'], some 1) := by
    apply computed_eq h hs
    decide +kernel
  simp only [Prod.mk.injEq] at hconflicts
  obtain ⟨hll1, hnonterminals, hlone⟩ := hconflicts
  refine ⟨g, s, h, hs, hnonterminals, hlone, fun htest => ?_⟩
  rw [hlaw.2 htest] at hll1
  cases hll1

end Grammar

end Predictive
