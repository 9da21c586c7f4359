import Predictive.Proofs.Sets.First
import Predictive.Proofs.Sets.FollowRules

/-!
# Set computations come to rest

FIRST and FOLLOW are repetitions without a bound of their own: passes
are made until one leaves the total size as it was. `Settles` is that
repetition, with no allowance anywhere, and it relates sets to a result
only when it ends. It does end, since a pass that does not end it puts
a new pair into a finite set (`settles_run`), and the repetition with
the allowance that the two computations pass has the same result and
the same size after each pass. For the same reason the passes are at
most one more than the pairs of that set (`Settles.passes_le`).
-/

namespace Predictive

namespace Saturation

variable {α : Type} {step : SetMap → α → SetMap} {l : List α}

/-- Passes over `m`, made until one leaves the total size as it was, end
with the sets and the sizes of `s`. -/
inductive Settles (pass : SetMap → SetMap) : SetMap → Saturation → Prop where
  | rest {m : SetMap} : (pass m).total = m.total → Settles pass m ⟨pass m, [(pass m).total]⟩
  | again {m : SetMap} {s : Saturation} : (pass m).total ≠ m.total → Settles pass (pass m) s →
      Settles pass m ⟨s.sets, (pass m).total :: s.totals⟩

variable {pass : SetMap → SetMap} {m : SetMap} {s : Saturation}

/-- The sets at the end are those of the last pass, the first one to
leave the total size as it was. -/
theorem Settles.exists_iterate (h : Settles pass m s) :
    ∃ k, s.passes = k + 1 ∧ s.sets = pass^[k + 1] m ∧
      (pass^[k + 1] m).total = (pass^[k] m).total ∧
      ∀ j < k, (pass^[j + 1] m).total ≠ (pass^[j] m).total := by
  induction h with
  | rest htotal => exact ⟨0, rfl, rfl, htotal, fun j hj => absurd hj (Nat.not_lt_zero j)⟩
  | again hne _ ih =>
    obtain ⟨k, hpasses, hsets, htotal, hbefore⟩ := ih
    refine ⟨k + 1, congrArg Nat.succ hpasses, hsets, htotal, fun j hj => ?_⟩
    cases j with
    | zero => exact hne
    | succ j => exact hbefore j (Nat.lt_of_succ_lt_succ hj)

/-- Each pass but the last puts a pair into the sets, of which there are
no more than in a finite set that no step leaves. -/
theorem Settles.passes_le (hs : Growing step) {U : Finset (Symbol × Symbol)}
    (hstep : ∀ m, ∀ a ∈ l, m.members ⊆ U → (step m a).members ⊆ U)
    (h : Settles (fun m => l.foldl step m) m s) (hm : m.members ⊆ U) :
    s.passes + m.total ≤ U.card + 1 := by
  induction h with
  | @rest m _ =>
    have hcard := Finset.card_le_card hm
    rw [SetMap.card_members] at hcard
    show 1 + m.total ≤ U.card + 1
    omega
  | @again m s hne _ ih =>
    have hlt := hs.total_lt_foldl hne
    have hrest : s.totals.length + (l.foldl step m).total ≤ U.card + 1 :=
      ih (members_foldl_subset hstep hm)
    show s.totals.length + 1 + m.total ≤ U.card + 1
    omega

/-- Passes of steps that only add, and never leave a finite set of
pairs, come to rest, within any allowance that exceeds that set. -/
theorem settles_run (hs : Growing step) {U : Finset (Symbol × Symbol)}
    (hstep : ∀ m, ∀ a ∈ l, m.members ⊆ U → (step m a).members ⊆ U) {allowance : Nat}
    {m : SetMap} (hm : m.members ⊆ U) (enough : U.card < allowance + m.total) :
    Settles (fun m => l.foldl step m) m (run (fun m => l.foldl step m) allowance m) := by
  induction allowance generalizing m with
  | zero =>
    -- a used up allowance would leave more pairs in `m` than `U` has
    have hcard := Finset.card_le_card hm
    rw [SetMap.card_members] at hcard
    omega
  | succ allowance ih =>
    rw [run]
    split
    · next htotal => exact .rest htotal
    · next hne =>
      have hlt := hs.total_lt_foldl hne
      exact .again hne (ih (members_foldl_subset hstep hm) (by omega))

end Saturation

namespace Grammar

variable {g : Grammar} {first seed : SetMap} {N : Saturation}

/-- FIRST is what its passes come to rest at, restricted to the
nonterminals. -/
theorem exists_settles_first (g : Grammar) (seed : SetMap) :
    ∃ s, Saturation.Settles g.firstPass seed s ∧ g.first seed = s.restrict g.nonterminals :=
  ⟨_, Saturation.settles_run growing_firstStep
    (fun m _ mem => members_firstStep_subset (g := g) seed (m := m) mem)
    (seed.members_subset_reach g.nonterminals g.firstSymbols)
    (Nat.lt_add_right seed.total (card_firstReach_lt g seed)), rfl⟩

/-- FOLLOW is what the passes over the rules of a grammar come to rest
at, restricted to the nonterminals. -/
theorem exists_settles_follow (h : g.follow first seed = .ok N) :
    ∃ rules s, FollowRule.ofProductions first g.productions = .ok rules ∧
      Saturation.Settles (FollowRule.pass rules) (g.followSeed seed) s ∧
      N = s.restrict g.nonterminals := by
  rw [follow] at h
  cases hrules : FollowRule.ofProductions first g.productions with
  | error e =>
    rw [hrules] at h
    cases h
  | ok rules =>
    rw [hrules] at h
    cases h
    refine ⟨rules, _, rfl, ?_, rfl⟩
    exact Saturation.settles_run FollowRule.growing_apply
      (fun m r hr => members_apply_subset (g.followSeed seed) (m := m) hr)
      ((g.followSeed seed).members_subset_reach _ _)
      (Nat.lt_add_right (g.followSeed seed).total (card_followReach_lt _ rules))

end Grammar

end Predictive
