import Predictive.Proofs.Sets.First
import Predictive.Sets.Follow

/-!
# Passes over the FOLLOW rules

Collecting the rules succeeds over any map with a set for each
nonterminal, and gives one rule for each occurrence of a nonterminal on
a right-hand side (`FollowRule.ofProductions_eq`). The passes over them
end in a map that satisfies all of them (`followClosed_follow`), holds
what it was started from (`followSeed_subset_follow`), and holds
nothing that the rules do not ask for (`follow_induction`).

The map of FIRST sets and the seed are arbitrary throughout.
-/

namespace Predictive

theorem Production.isEpsilon_eq_false {p : Production} {A : Symbol} (h : A ∈ p.rhs)
    (hA : A.isNonterminal) : p.isEpsilon = false := by
  rw [Bool.eq_false_iff]
  intro hε
  rw [isEpsilon_iff.1 hε, List.mem_singleton] at h
  exact Symbol.ne_epsilon_of_isNonterminal hA h

/-! ## Rules -/

namespace FollowRule

variable {first : SetMap} {f : Symbol → SymbolSet} {r : FollowRule} {m : SetMap}

/-- The rule of one occurrence in a right-hand side of `source`. -/
def Arises (f : Symbol → SymbolSet) (source : Symbol) (body : List Symbol) (r : FollowRule) :
    Prop :=
  ∃ before after, body = before ++ r.target :: after ∧ r.target.isNonterminal ∧
    r.source = source ∧ r.starts = (firstOfSequence f after).erase .epsilon ∧
    r.inherits = decide (.epsilon ∈ firstOfSequence f after)

theorem arises_cons {source s : Symbol} {body : List Symbol} :
    Arises f source (s :: body) r ↔
      (s.isNonterminal ∧ r = ⟨s, source, (firstOfSequence f body).erase .epsilon,
        decide (.epsilon ∈ firstOfSequence f body)⟩) ∨ Arises f source body r := by
  constructor
  · rintro ⟨before, after, hbody, hn, hsource, hstarts, hinherits⟩
    cases before with
    | nil =>
      obtain ⟨rfl, rfl⟩ := List.cons.inj hbody
      refine Or.inl ⟨hn, ?_⟩
      cases r
      simp_all
    | cons t before =>
      obtain ⟨rfl, rfl⟩ := List.cons.inj hbody
      exact Or.inr ⟨before, after, rfl, hn, hsource, hstarts, hinherits⟩
  · rintro (⟨hn, rfl⟩ | ⟨before, after, rfl, h⟩)
    · exact ⟨[], body, rfl, hn, rfl, rfl, rfl⟩
    · exact ⟨s :: before, after, rfl, h⟩

theorem ofBody_eq (source : Symbol) {body : List Symbol}
    (h : ∀ A ∈ body, A.isNonterminal → A ∈ first.keys) :
    ∃ rules, ofBody first source body = .ok rules ∧
      ∀ r, r ∈ rules ↔ Arises first.find source body r := by
  induction body with
  | nil => exact ⟨[], rfl, fun r => by simp [Arises]⟩
  | cons s body ih =>
    have hbody : ∀ A ∈ body, A.isNonterminal → A ∈ first.keys :=
      fun A hA => h A (List.mem_cons_of_mem _ hA)
    obtain ⟨rules, hrules, hmem⟩ := ih hbody
    simp only [ofBody, SetMap.firstOfSequence_eq hbody, hrules]
    by_cases hn : s.isNonterminal
    · rw [if_pos hn]
      refine ⟨_, rfl, fun r => ?_⟩
      rw [arises_cons, List.mem_cons, hmem]
      simp [hn]
    · rw [if_neg hn]
      refine ⟨rules, rfl, fun r => ?_⟩
      rw [arises_cons, hmem]
      simp [hn]

theorem ofProductions_eq {ps : List Production}
    (h : ∀ p ∈ ps, ∀ A ∈ p.rhs, A.isNonterminal → A ∈ first.keys) :
    ∃ rules, ofProductions first ps = .ok rules ∧
      ∀ r, r ∈ rules ↔ ∃ p ∈ ps, Arises first.find p.lhs p.rhs r := by
  induction ps with
  | nil => exact ⟨[], rfl, fun r => by simp⟩
  | cons p ps ih =>
    obtain ⟨others, hothers, hmem⟩ := ih fun q hq => h q (List.mem_cons_of_mem _ hq)
    obtain ⟨here, hhere, hmemHere⟩ := ofBody_eq p.lhs (h p (List.mem_cons_self ..))
    have hnone : p.isEpsilon → here = [] := by
      intro he
      refine List.eq_nil_iff_forall_not_mem.2 fun r hr => ?_
      obtain ⟨before, after, hrhs, hn, -⟩ := (hmemHere r).1 hr
      rw [Production.isEpsilon_eq_false (by simp [hrhs]) hn] at he
      cases he
    refine ⟨here ++ others, ?_, fun r => ?_⟩
    · rw [ofProductions, hothers, hhere]
      split
      · next he => rw [hnone he]; rfl
      · rfl
    · simp [hmem, hmemHere]

theorem mem_find_apply {B s : Symbol} :
    s ∈ (r.apply m).find B ↔
      s ∈ m.find B ∨ (B = r.target ∧ (s ∈ r.starts ∨ (r.inherits ∧ s ∈ m.find r.source))) := by
  unfold apply
  split
  · next hi =>
    simp only [SetMap.mem_find_addAll, hi, true_and]
    constructor
    · rintro ((h | ⟨hB, h⟩) | ⟨hB, h | ⟨-, h⟩⟩)
      · exact Or.inl h
      · exact Or.inr ⟨hB, Or.inl h⟩
      · exact Or.inr ⟨hB, Or.inr h⟩
      · exact Or.inr ⟨hB, Or.inl h⟩
    · rintro (h | ⟨hB, h | h⟩)
      · exact Or.inl (Or.inl h)
      · exact Or.inl (Or.inr ⟨hB, h⟩)
      · exact Or.inr ⟨hB, Or.inl h⟩
  · next hi => simp [SetMap.mem_find_addAll, hi]

theorem growing_apply : Growing (fun m (r : FollowRule) => r.apply m) where
  grows m r A s h := mem_find_apply.2 (Or.inl h)
  mono r h := by
    intro A s hs
    rcases mem_find_apply.1 hs with hm | ⟨hA, hs | ⟨hi, hs⟩⟩
    · exact mem_find_apply.2 (Or.inl (h A s hm))
    · exact mem_find_apply.2 (Or.inr ⟨hA, Or.inl hs⟩)
    · exact mem_find_apply.2 (Or.inr ⟨hA, Or.inr ⟨hi, h r.source s hs⟩⟩)

/-- A rule for one of the rows, which starts with symbols that are known,
stays in reach. -/
theorem members_apply_subset {m₀ : SetMap} {rows symbols : List Symbol}
    (htarget : r.target ∈ rows) (hstarts : ∀ s ∈ r.starts, s ∈ symbols)
    (hm : m.members ⊆ m₀.reach rows symbols) :
    (r.apply m).members ⊆ m₀.reach rows symbols := by
  have hadded := SetMap.members_addAll_subset (S := r.starts) htarget hm
    fun s hs => Or.inl (hstarts s hs)
  unfold apply
  split
  · exact SetMap.members_addAll_subset htarget hadded fun s hs => Or.inr ⟨r.source, hs⟩
  · exact hadded

end FollowRule

namespace Grammar

variable {g : Grammar} {first seed : SetMap} {f n : Symbol → SymbolSet} {N : Saturation}

/-! ## Closed maps -/

/-- The map satisfies the rule of every occurrence of a nonterminal on a
right-hand side. -/
structure FollowClosed (g : Grammar) (f n : Symbol → SymbolSet) : Prop where
  starts : ∀ p ∈ g.productions, ∀ before B after, p.rhs = before ++ B :: after →
    B.isNonterminal → ∀ s ∈ firstOfSequence f after, s ≠ .epsilon → s ∈ n B
  inherits : ∀ p ∈ g.productions, ∀ before B after, p.rhs = before ++ B :: after →
    B.isNonterminal → .epsilon ∈ firstOfSequence f after → n p.lhs ⊆ n B

theorem mem_find_followSeed {A s : Symbol} :
    s ∈ (g.followSeed seed).find A ↔ (A = g.start ∧ s = .endMarker) ∨ s ∈ seed.find A := by
  have hfold : ∀ (l : List (Symbol × SymbolSet)) (m : SetMap),
      s ∈ (l.foldl (fun m e => m.addAll e.1 e.2) m).find A ↔
        s ∈ m.find A ∨ ∃ e ∈ l, e.1 = A ∧ s ∈ e.2 := by
    intro l
    induction l with
    | nil => simp
    | cons e l ih =>
      intro m
      rw [List.foldl_cons, ih, SetMap.mem_find_addAll]
      simp [or_assoc, eq_comm]
  have hseed : (∃ e ∈ seed.entries, e.1 = A ∧ s ∈ e.2) ↔ s ∈ seed.find A := by
    rw [← SetMap.mem_pairs, SetMap.pairs, List.mem_flatMap]
    simp [SymbolSet.mem_toList, and_comm]
  show s ∈ (seed.entries.foldl (fun m e => SetMap.addAll m e.1 e.2) _).find A ↔ _
  rw [hfold, hseed, SetMap.mem_find_addAll]
  simp

/-- FOLLOW can be computed over any map with a set for each nonterminal:
it is the repetition of the rules of all occurrences. -/
theorem follow_eq (wf : g.WellFormed) (hfirst : ∀ A ∈ g.nonterminals, A ∈ first.keys)
    (seed : SetMap) :
    ∃ rules, (∀ r, r ∈ rules ↔ ∃ p ∈ g.productions, FollowRule.Arises first.find p.lhs p.rhs r) ∧
      g.follow first seed = .ok ((Saturation.run (FollowRule.pass rules)
        (followAllowance (g.followSeed seed) rules) (g.followSeed seed)).restrict
          g.nonterminals) := by
  have hdefined : ∀ p ∈ g.productions, ∀ A ∈ p.rhs, A.isNonterminal → A ∈ first.keys :=
    fun p mem A hA hn => hfirst A (wf.defined p mem A hA hn)
  obtain ⟨rules, hrules, hmem⟩ := FollowRule.ofProductions_eq hdefined
  refine ⟨rules, hmem, ?_⟩
  rw [follow, hrules]
  rfl

theorem exists_follow (wf : g.WellFormed) (hfirst : ∀ A ∈ g.nonterminals, A ∈ first.keys)
    (seed : SetMap) : ∃ N, g.follow first seed = .ok N := by
  obtain ⟨rules, -, h⟩ := follow_eq wf hfirst seed
  exact ⟨_, h⟩

theorem members_apply_subset (m₀ : SetMap) {rules : List FollowRule} {m : SetMap}
    {r : FollowRule} (hr : r ∈ rules)
    (hm : m.members ⊆ m₀.reach (rules.map FollowRule.target)
      (rules.flatMap fun r => r.starts.toList)) :
    (r.apply m).members ⊆ m₀.reach (rules.map FollowRule.target)
      (rules.flatMap fun r => r.starts.toList) :=
  FollowRule.members_apply_subset (List.mem_map.2 ⟨r, hr, rfl⟩)
    (fun _ hs => List.mem_flatMap.2 ⟨r, hr, hs⟩) hm

theorem card_followReach_lt (m₀ : SetMap) (rules : List FollowRule) :
    (m₀.reach (rules.map FollowRule.target) (rules.flatMap fun r => r.starts.toList)).card <
      followAllowance m₀ rules := by
  have hcard := m₀.card_reach_lt (rules.map FollowRule.target)
    (rules.flatMap fun r => r.starts.toList)
  have hlength : (rules.flatMap fun r => r.starts.toList).length = tally (·.starts.size) rules :=
    length_flatMap_eq_tally ..
  rwa [List.length_map, hlength] at hcard

theorem followClosed_run {rules : List FollowRule}
    (hrules : ∀ r, r ∈ rules ↔ ∃ p ∈ g.productions, FollowRule.Arises f p.lhs p.rhs r)
    (m₀ : SetMap) :
    g.FollowClosed f
      (Saturation.run (FollowRule.pass rules) (followAllowance m₀ rules) m₀).sets.find := by
  have hclosed := Saturation.run_closed FollowRule.growing_apply
    (fun m r hr => members_apply_subset m₀ (m := m) hr) (m₀.members_subset_reach _ _)
    (Nat.lt_add_right m₀.total (card_followReach_lt m₀ rules))
  have hrule : ∀ p ∈ g.productions, ∀ before B after, p.rhs = before ++ B :: after →
      B.isNonterminal → (⟨B, p.lhs, (firstOfSequence f after).erase .epsilon,
        decide (.epsilon ∈ firstOfSequence f after)⟩ : FollowRule) ∈ rules :=
    fun p mem before B after hrhs hn =>
      (hrules _).2 ⟨p, mem, before, after, hrhs, hn, rfl, rfl, rfl⟩
  constructor
  · intro p mem before B after hrhs hn s hs hε
    refine hclosed _ (hrule p mem before B after hrhs hn) B s (FollowRule.mem_find_apply.2 ?_)
    exact Or.inr ⟨rfl, Or.inl (SymbolSet.mem_erase.2 ⟨hs, hε⟩)⟩
  · intro p mem before B after hrhs hn hε s hs
    refine hclosed _ (hrule p mem before B after hrhs hn) B s (FollowRule.mem_find_apply.2 ?_)
    exact Or.inr ⟨rfl, Or.inr ⟨decide_eq_true hε, hs⟩⟩

theorem keys_follow (wf : g.WellFormed) (hfirst : ∀ A ∈ g.nonterminals, A ∈ first.keys)
    (h : g.follow first seed = .ok N) : N.sets.keys = g.nonterminals := by
  obtain ⟨rules, -, heq⟩ := follow_eq wf hfirst seed
  obtain rfl := Except.ok.inj (heq.symm.trans h)
  exact SetMap.keys_restrict _ (OrderedMap.nodup_keys _)

theorem get?_follow (wf : g.WellFormed) (hfirst : ∀ A ∈ g.nonterminals, A ∈ first.keys)
    (h : g.follow first seed = .ok N) {A : Symbol} (hA : A ∈ g.nonterminals) :
    N.sets.get? A = some (N.sets.find A) :=
  SetMap.get?_of_mem (keys_follow wf hfirst h ▸ hA)

theorem followClosed_follow (wf : g.WellFormed) (hfirst : ∀ A ∈ g.nonterminals, A ∈ first.keys)
    (h : g.follow first seed = .ok N) : g.FollowClosed first.find N.sets.find := by
  obtain ⟨rules, hmem, heq⟩ := follow_eq wf hfirst seed
  obtain rfl := Except.ok.inj (heq.symm.trans h)
  have hrun := followClosed_run hmem (g.followSeed seed)
  have hfind : ∀ A ∈ g.nonterminals, SetMap.find _ A = SetMap.find _ A :=
    fun A hA => SetMap.find_restrict (m := (Saturation.run (FollowRule.pass rules)
      (followAllowance (g.followSeed seed) rules) (g.followSeed seed)).sets) hA
  have hdefined : ∀ p ∈ g.productions, ∀ before B after, p.rhs = before ++ B :: after →
      B.isNonterminal → B ∈ g.nonterminals :=
    fun p mem before B after hrhs hn => wf.defined p mem B (by simp [hrhs]) hn
  constructor
  · intro p mem before B after hrhs hn s hs hε
    rw [Saturation.restrict, hfind B (hdefined p mem before B after hrhs hn)]
    exact hrun.starts p mem before B after hrhs hn s hs hε
  · intro p mem before B after hrhs hn hε
    rw [Saturation.restrict, hfind B (hdefined p mem before B after hrhs hn),
      hfind p.lhs (lhs_mem_nonterminals mem)]
    exact hrun.inherits p mem before B after hrhs hn hε

theorem followSeed_subset_follow (wf : g.WellFormed)
    (hfirst : ∀ A ∈ g.nonterminals, A ∈ first.keys) (h : g.follow first seed = .ok N)
    {A : Symbol} (hA : A ∈ g.nonterminals) : (g.followSeed seed).find A ⊆ N.sets.find A := by
  obtain ⟨rules, -, heq⟩ := follow_eq wf hfirst seed
  obtain rfl := Except.ok.inj (heq.symm.trans h)
  rw [Saturation.restrict, SetMap.find_restrict hA]
  exact Saturation.run_induction (fun m r => r.apply m) rules (fun m => g.followSeed seed ≤ m)
    (fun m r _ hm => le_trans hm (FollowRule.growing_apply.grows m r)) _ (le_refl _) A

/-- What holds of the start and the seed and is kept by every rule holds
of all that FOLLOW contains. -/
theorem follow_induction (wf : g.WellFormed) (hfirst : ∀ A ∈ g.nonterminals, A ∈ first.keys)
    (h : g.follow first seed = .ok N) {R : Symbol → Symbol → Prop}
    (hstart : R g.start .endMarker) (hseed : ∀ A s, s ∈ seed.find A → R A s)
    (hstarts : ∀ p ∈ g.productions, ∀ before B after, p.rhs = before ++ B :: after →
      B.isNonterminal → ∀ s ∈ firstOfSequence first.find after, s ≠ .epsilon → R B s)
    (hinherits : ∀ p ∈ g.productions, ∀ before B after, p.rhs = before ++ B :: after →
      B.isNonterminal → .epsilon ∈ firstOfSequence first.find after → ∀ s, R p.lhs s → R B s) :
    ∀ A s, s ∈ N.sets.find A → R A s := by
  obtain ⟨rules, hmem, heq⟩ := follow_eq wf hfirst seed
  obtain rfl := Except.ok.inj (heq.symm.trans h)
  have hinit : ∀ A s, s ∈ (g.followSeed seed).find A → R A s := by
    intro A s hs
    rcases mem_find_followSeed.1 hs with ⟨rfl, rfl⟩ | hs
    · exact hstart
    · exact hseed A s hs
  have hrun := Saturation.run_induction (fun m r => r.apply m) rules
    (fun m => ∀ A s, s ∈ m.find A → R A s)
    (fun m r hr hm A s hs => by
      obtain ⟨p, mem, before, after, hrhs, hn, hsource, hst, hinh⟩ := (hmem r).1 hr
      rcases FollowRule.mem_find_apply.1 hs with hold | ⟨rfl, hs | ⟨hi, hs⟩⟩
      · exact hm A s hold
      · rw [hst, SymbolSet.mem_erase] at hs
        exact hstarts p mem before _ after hrhs hn s hs.1 hs.2
      · rw [hinh] at hi
        rw [hsource] at hs
        exact hinherits p mem before _ after hrhs hn (of_decide_eq_true hi) s (hm _ s hs))
    (followAllowance (g.followSeed seed) rules) hinit
  intro A s hs
  exact hrun A s (SetMap.restrict_le _ _ A s hs)

end Grammar

end Predictive
