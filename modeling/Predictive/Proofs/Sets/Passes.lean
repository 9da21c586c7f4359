import Predictive.Proofs.Sets.Follow
import Predictive.Proofs.Sets.Settling

/-!
# How many passes are made

Both repetitions come to rest from every seed, and the pass with which
they do changed no set: total sizes are compared, but a pass only adds,
so one set cannot grow while another shrinks.

Without a seed the passes are bounded by the grammar. FIRST never holds
anything but terminals and ε, FOLLOW nothing but terminals and the end
marker, in the sets of the nonterminals alone. That is a finite set of
pairs which no step leaves, and each pass but the last adds one of
them.
-/

namespace Predictive

/-- The pass with which a repetition comes to rest changes no set. -/
theorem Saturation.Settles.exists_last_pass {α : Type} {step : SetMap → α → SetMap} {l : List α}
    {m : SetMap} {s : Saturation} (hs : Growing step)
    (h : Settles (fun m => l.foldl step m) m s) :
    ∃ k, s.passes = k + 1 ∧ s.sets = (fun m => l.foldl step m)^[k + 1] m ∧
      ∀ A, ((fun m => l.foldl step m)^[k + 1] m).find A =
        ((fun m => l.foldl step m)^[k] m).find A := by
  obtain ⟨k, hpasses, hsets, htotal, -⟩ := h.exists_iterate
  refine ⟨k, hpasses, hsets, fun A => ?_⟩
  rw [Function.iterate_succ_apply'] at htotal ⊢
  exact hs.find_foldl_of_total_eq htotal A

/-- Where the sets of the rows hold nothing but the symbols, there is at
most one pass more than there are places for these. -/
theorem Saturation.Settles.passes_le_mul {α : Type} {step : SetMap → α → SetMap} {l : List α}
    {m : SetMap} {s : Saturation} {rows symbols : List Symbol} (hs : Growing step)
    (h : Settles (fun m => l.foldl step m) m s)
    (hstep : ∀ m, ∀ a ∈ l, m.members ⊆ (∅ : SetMap).reach rows symbols →
      (step m a).members ⊆ (∅ : SetMap).reach rows symbols)
    (hm : m.members ⊆ (∅ : SetMap).reach rows symbols) :
    s.passes ≤ rows.length * symbols.length + 1 := by
  have hpasses := h.passes_le hs hstep hm
  have hcard := (∅ : SetMap).card_reach_lt rows symbols
  have hsize : (∅ : SetMap).size = 0 := rfl
  have htotal : (∅ : SetMap).total = 0 := rfl
  rw [hsize, htotal, Nat.zero_add, Nat.zero_add, Saturation.capacity] at hcard
  omega

namespace Grammar

variable {g : Grammar} {N : Saturation}

/-! ## The bound -/

theorem members_firstStep_terminals {m : SetMap} {p : Production} (mem : p ∈ g.productions)
    (hm : m.members ⊆ (∅ : SetMap).reach g.nonterminals (g.terminals ++ [.epsilon])) :
    (firstStep m p).members ⊆
      (∅ : SetMap).reach g.nonterminals (g.terminals ++ [.epsilon]) := by
  refine SetMap.members_addAll_subset (lhs_mem_nonterminals mem) hm fun s hs => ?_
  rcases mem_firstOfSequence_cases hs with rfl | ⟨hs, ht⟩ | ⟨B, -, -, hB⟩
  · exact Or.inl (List.mem_append_right _ (List.mem_singleton_self _))
  · exact Or.inl (List.mem_append_left _ (mem_terminals.2 ⟨ht, p, mem, hs⟩))
  · exact Or.inr ⟨B, hB⟩

theorem passes_first_le (g : Grammar) :
    (g.first ∅).passes ≤ g.nonterminals.length * (g.terminals.length + 1) + 1 := by
  obtain ⟨s, hs, hfirst⟩ := exists_settles_first g ∅
  have hpasses := hs.passes_le_mul growing_firstStep
    (fun m p mem => members_firstStep_terminals (m := m) mem)
    (SetMap.members_subset_reach ∅ _ _)
  rw [List.length_append, List.length_singleton] at hpasses
  rw [hfirst]
  exact hpasses

/-- What can begin the rest of a right-hand side, apart from ε, is a
terminal. -/
theorem mem_terminals_of_arises (wf : g.WellFormed) {p : Production} (mem : p ∈ g.productions)
    {r : FollowRule} (hr : FollowRule.Arises (g.first ∅).sets.find p.lhs p.rhs r) {s : Symbol}
    (hs : s ∈ r.starts) : s ∈ g.terminals := by
  obtain ⟨before, after, hrhs, -, -, hstarts, -⟩ := hr
  rw [hstarts, SymbolSet.mem_erase] at hs
  rcases mem_firstOfSequence_cases hs.1 with hε | ⟨hmem, ht⟩ | ⟨A, -, -, hA⟩
  · exact absurd hε hs.2
  · exact mem_terminals.2 ⟨ht, p, mem, by simp [hrhs, hmem]⟩
  · exact ((FirstOf.of_mem_first wf A s hA).begins hs.2).1

theorem passes_follow_le (wf : g.WellFormed) (h : g.follow (g.first ∅).sets ∅ = .ok N) :
    N.passes ≤ g.nonterminals.length * (g.terminals.length + 1) + 1 := by
  obtain ⟨rules, s, hrules, hs, rfl⟩ := exists_settles_follow h
  obtain ⟨rules', hrules', hmem⟩ := FollowRule.ofProductions_eq fun p mem A hA hn =>
    mem_keys_first (wf.defined p mem A hA hn)
  obtain rfl := Except.ok.inj (hrules.symm.trans hrules')
  have hstep : ∀ m : SetMap, ∀ r ∈ rules,
      m.members ⊆ (∅ : SetMap).reach g.nonterminals (g.terminals ++ [.endMarker]) →
        (r.apply m).members ⊆
          (∅ : SetMap).reach g.nonterminals (g.terminals ++ [.endMarker]) := by
    intro m r hr
    obtain ⟨p, mem, harises⟩ := (hmem r).1 hr
    have htarget : r.target ∈ g.nonterminals := by
      obtain ⟨before, after, hrhs, hn, -⟩ := harises
      exact wf.defined p mem r.target (by simp [hrhs]) hn
    exact FollowRule.members_apply_subset htarget fun s hs =>
      List.mem_append_left _ (mem_terminals_of_arises wf mem harises hs)
  have hstart : (g.followSeed ∅).members ⊆
      (∅ : SetMap).reach g.nonterminals (g.terminals ++ [.endMarker]) :=
    SetMap.members_addAll_subset wf.start_mem (SetMap.members_subset_reach ∅ _ _) fun s hs =>
      Or.inl (List.mem_append_right _ (List.mem_singleton.2 (SymbolSet.mem_single.1 hs)))
  have hpasses := hs.passes_le_mul FollowRule.growing_apply hstep hstart
  rwa [List.length_append, List.length_singleton] at hpasses

/-! ## The law of passes -/

/-- From every seed the passes for FIRST and FOLLOW come to rest, with
one that changed no set; and without a seed they are at most one more
than there are places for symbols. -/
theorem passes_settle {pairs : List (Text × List Text)} {g : Grammar} (h : load pairs = .ok g) :
    (∀ seed, ∃ s k, Saturation.Settles g.firstPass seed s ∧
      g.first seed = s.restrict g.nonterminals ∧
      s.passes = k + 1 ∧ s.sets = g.firstPass^[k + 1] seed ∧
      ∀ A, (g.firstPass^[k + 1] seed).find A = (g.firstPass^[k] seed).find A) ∧
    (∀ first : SetMap, (∀ A ∈ g.nonterminals, A ∈ first.keys) → ∀ seed, ∃ rules s k,
      FollowRule.ofProductions first g.productions = .ok rules ∧
      Saturation.Settles (FollowRule.pass rules) (g.followSeed seed) s ∧
      g.follow first seed = .ok (s.restrict g.nonterminals) ∧
      s.passes = k + 1 ∧ s.sets = (FollowRule.pass rules)^[k + 1] (g.followSeed seed) ∧
      ∀ A, ((FollowRule.pass rules)^[k + 1] (g.followSeed seed)).find A =
        ((FollowRule.pass rules)^[k] (g.followSeed seed)).find A) ∧
    (g.first ∅).passes ≤ g.nonterminals.length * (g.terminals.length + 1) + 1 ∧
    (∃ N, g.follow (g.first ∅).sets ∅ = .ok N ∧
      N.passes ≤ g.nonterminals.length * (g.terminals.length + 1) + 1) ∧
    (∀ m, (g.firstPass m).total = m.total → ∀ A, (g.firstPass m).find A = m.find A) ∧
    ∀ rules m, (FollowRule.pass rules m).total = m.total →
      ∀ A, (FollowRule.pass rules m).find A = m.find A := by
  have wf := wellFormed_of_load h
  refine ⟨fun seed => ?_, fun first hfirst seed => ?_, passes_first_le g, ?_, ?_, ?_⟩
  · obtain ⟨s, hs, heq⟩ := exists_settles_first g seed
    obtain ⟨k, hlast⟩ := hs.exists_last_pass growing_firstStep
    exact ⟨s, k, hs, heq, hlast⟩
  · obtain ⟨N, hN⟩ := exists_follow wf hfirst seed
    obtain ⟨rules, s, hrules, hs, rfl⟩ := exists_settles_follow hN
    obtain ⟨k, hlast⟩ := hs.exists_last_pass FollowRule.growing_apply
    exact ⟨rules, s, k, hrules, hs, hN, hlast⟩
  · obtain ⟨N, hN⟩ := exists_follow wf (fun _ => mem_keys_first) ∅
    exact ⟨N, hN, passes_follow_le wf hN⟩
  · exact fun m ht A => growing_firstStep.find_foldl_of_total_eq ht A
  · exact fun rules m ht A => FollowRule.growing_apply.find_foldl_of_total_eq ht A

/-- Symbols that climb one nonterminal a pass, and a seed that brings in
symbols and a key beside the grammar. -/
theorem passes_settle_of_late_rules :
    ∃ g, load [("S", ["A"]), ("A", ["B"]), ("B", ["b"])] = .ok g ∧
      (g.first ∅).passes = 4 ∧
      (g.first ∅).passes ≤ g.nonterminals.length * (g.terminals.length + 1) + 1 ∧
      ∃ s, Saturation.Settles g.firstPass
        (SetMap.addAll ∅ (.single 'Q') (.ofList [.single 'q', .endMarker])) s := by
  have h : load [("S", ["A"]), ("A", ["B"]), ("B", ["b"])] = .ok _ := rfl
  obtain ⟨hfirst, -, hbound, -⟩ := passes_settle h
  obtain ⟨s, -, hs, -⟩ := hfirst
    (SetMap.addAll ∅ (.single 'Q') (.ofList [.single 'q', .endMarker]))
  exact ⟨_, h, by decide, hbound, s, hs⟩

end Grammar

end Predictive
