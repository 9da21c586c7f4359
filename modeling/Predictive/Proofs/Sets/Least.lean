import Mathlib.Order.Bounds.Basic
import Predictive.Proofs.Sets.FollowRules

/-!
# FIRST and FOLLOW over a seed are least

A seed may hold any symbols, ε and the end marker among them, and sets
for keys that are no nonterminals of the grammar; these take part in the
passes and are dropped at the end. Whatever it holds, the result is the
least map on the nonterminals that contains it and satisfies the
equations, read as inclusions: it satisfies them because the passes come
to rest in a map closed under every step, and it is least because each
step only adds what every solution has.

How a result depends on its seed follows from that alone
(`LeastOver.of_isLeast`), for both computations at once. A larger seed
gives no less; and a seed between another seed and its result changes
nothing (`eq_of_seed_between`), of which computing again from a result,
and seeding with what comes out anyway, are two cases.
-/

namespace Predictive

namespace SetMap

/-! ## Solutions over a seed -/

variable {rows : List Symbol} {closed : SetMap → Prop} {s s' m m' : SetMap}

/-- The maps on the rows that contain the seed and are closed. -/
def Solutions (rows : List Symbol) (closed : SetMap → Prop) (seed : SetMap) : Set SetMap :=
  {m | (∀ A, A ∈ m.keys ↔ A ∈ rows) ∧ (∀ A ∈ rows, seed.find A ⊆ m.find A) ∧ closed m}

theorem entries_eq (m : SetMap) : m.entries = m.keys.map fun A => (A, m.find A) := by
  rw [OrderedMap.keys, List.map_map]
  refine ((List.map_congr_left fun e he => ?_).trans (List.map_id _)).symm
  have hget : m.get? e.1 = some e.2 := OrderedMap.get?_eq_some.2 he
  show (e.1, m.find e.1) = e
  rw [find, hget]
  rfl

theorem eq_of_le_of_le (hkeys : m.keys = m'.keys) (h : m ≤ m') (h' : m' ≤ m) : m = m' := by
  have hfind : m.find = m'.find := funext fun A => SymbolSet.ext fun x => ⟨h A x, h' A x⟩
  apply OrderedMap.ext_entries
  rw [entries_eq, entries_eq, hkeys, hfind]

theorem le_of_seed_le (h : IsLeast (Solutions rows closed s) m)
    (h' : IsLeast (Solutions rows closed s') m')
    (hs : ∀ A ∈ rows, s.find A ⊆ s'.find A) : m ≤ m' := by
  obtain ⟨hkeys, hseed, hclosed⟩ := h'.1
  exact h.2 ⟨hkeys, fun A hA x hx => hseed A hA x (hs A hA x hx), hclosed⟩

theorem eq_of_seed_between (hkeys : m'.keys = m.keys) (h : IsLeast (Solutions rows closed s) m)
    (h' : IsLeast (Solutions rows closed s') m')
    (hs : ∀ A ∈ rows, s.find A ⊆ s'.find A) (hs' : ∀ A ∈ rows, s'.find A ⊆ m.find A) :
    m' = m := by
  obtain ⟨hrows, -, hclosed⟩ := h.1
  have hback : m' ≤ m := h'.2 ⟨hrows, hs', hclosed⟩
  exact eq_of_le_of_le hkeys hback (le_of_seed_le h h' hs)

/-- `result` takes every seed to the least solution over it; and what
follows about its dependence on the seed. -/
structure LeastOver (rows : List Symbol) (closed : SetMap → Prop) (result : SetMap → SetMap) :
    Prop where
  keys : ∀ seed, (result seed).keys = rows
  isLeast : ∀ seed, IsLeast (Solutions rows closed seed) (result seed)
  mono : ∀ s s', (∀ A ∈ rows, s.find A ⊆ s'.find A) → result s ≤ result s'
  again : ∀ seed, result (result seed) = result seed
  absorbs : ∀ seed, (∀ A ∈ rows, seed.find A ⊆ (result ∅).find A) → result seed = result ∅

theorem LeastOver.of_isLeast {result : SetMap → SetMap}
    (hkeys : ∀ seed, (result seed).keys = rows)
    (h : ∀ seed, IsLeast (Solutions rows closed seed) (result seed)) :
    LeastOver rows closed result where
  keys := hkeys
  isLeast := h
  mono s s' hs := le_of_seed_le (h s) (h s') hs
  again seed := eq_of_seed_between ((hkeys _).trans (hkeys seed).symm) (h seed) (h _)
    (h seed).1.2.1 fun _ _ _ hx => hx
  absorbs seed hseed := eq_of_seed_between ((hkeys seed).trans (hkeys ∅).symm) (h ∅) (h seed)
    (fun _ _ x hx => absurd hx (SymbolSet.not_mem_empty x)) hseed

end SetMap

namespace Grammar

variable {g : Grammar} {first seed M : SetMap} {N : Saturation}

/-! ## FIRST -/

/-- Each set contains FIRST, under the map itself, of the nonterminal's
right-hand sides. -/
def SatisfiesFirst (g : Grammar) (M : SetMap) : Prop :=
  ∀ p ∈ g.productions, ∃ S, M.firstOfSequence p.rhs = .ok S ∧ S ⊆ M.find p.lhs

theorem SatisfiesFirst.firstClosed (h : g.SatisfiesFirst M) : g.FirstClosed M.find := by
  intro p mem
  obtain ⟨S, hS, hsub⟩ := h p mem
  rw [SetMap.firstOfSequence_eq_ok hS]
  exact hsub

theorem satisfiesFirst_first (wf : g.WellFormed) (seed : SetMap) :
    g.SatisfiesFirst (g.first seed).sets := fun p mem =>
  ⟨_, firstOfSequence_first_eq (wf.defined p mem), firstClosed_first wf seed p mem⟩

theorem seed_subset_first {A : Symbol} (hA : A ∈ g.nonterminals) :
    seed.find A ⊆ (g.first seed).sets.find A := by
  rw [find_first hA, firstPass_eq]
  exact Saturation.run_induction firstStep g.productions (fun m => seed ≤ m)
    (fun m p _ hm => le_trans hm (growing_firstStep.grows m p)) _ (le_refl seed) A

theorem isLeast_first (wf : g.WellFormed) (seed : SetMap) :
    IsLeast (SetMap.Solutions g.nonterminals g.SatisfiesFirst seed) (g.first seed).sets := by
  refine ⟨⟨fun A => by rw [keys_first], fun A hA => seed_subset_first hA,
    satisfiesFirst_first wf seed⟩, ?_⟩
  rintro M ⟨-, hseed, hM⟩
  have hbelow : ∀ A x, x ∈ (g.first seed).sets.find A → A ∈ g.nonterminals → x ∈ M.find A := by
    refine first_induction (fun A x hx hA => hseed A hA x hx) ?_
    intro f hf p mem x hx _
    -- the sets that the pass met are below those of the solution
    have hmono : firstOfSequence f p.rhs ⊆ firstOfSequence M.find p.rhs :=
      firstOfSequence_mono fun B hB hn y hy => hf B y hy (wf.defined p mem B hB hn)
    exact hM.firstClosed p mem x (hmono x hx)
  exact fun A x hx => hbelow A x hx (keys_first g seed ▸ SetMap.mem_keys_of_mem_find hx)

/-! ## FOLLOW -/

/-- The end marker follows the start symbol; what begins the rest of a
right-hand side behind a nonterminal follows it; and where the rest can
vanish, so does what follows the left-hand side. -/
structure SatisfiesFollow (g : Grammar) (first N : SetMap) : Prop where
  start : .endMarker ∈ N.find g.start
  occurrence : ∀ p ∈ g.productions, p.isEpsilon = false →
    ∀ before B after, p.rhs = before ++ B :: after → B.isNonterminal →
      ∃ S, first.firstOfSequence after = .ok S ∧ S.erase .epsilon ⊆ N.find B ∧
        (.epsilon ∈ S → N.find p.lhs ⊆ N.find B)

theorem SatisfiesFollow.followClosed (h : g.SatisfiesFollow first M) :
    g.FollowClosed first.find M.find where
  starts p mem before B after hrhs hB x hx hε := by
    obtain ⟨S, hS, hstarts, -⟩ := h.occurrence p mem
      (Production.isEpsilon_eq_false (by simp [hrhs]) hB) before B after hrhs hB
    rw [SetMap.firstOfSequence_eq_ok hS] at hx
    exact hstarts x (SymbolSet.mem_erase.2 ⟨hx, hε⟩)
  inherits p mem before B after hrhs hB hε := by
    obtain ⟨S, hS, -, hinherits⟩ := h.occurrence p mem
      (Production.isEpsilon_eq_false (by simp [hrhs]) hB) before B after hrhs hB
    rw [SetMap.firstOfSequence_eq_ok hS] at hε
    exact hinherits hε

section Follow

variable (wf : g.WellFormed) (hfirst : ∀ A ∈ g.nonterminals, A ∈ first.keys)
  (h : g.follow first seed = .ok N)
include wf hfirst h

theorem satisfiesFollow_follow : g.SatisfiesFollow first N.sets where
  start := followSeed_subset_follow wf hfirst h wf.start_mem _
    (mem_find_followSeed.2 (Or.inl ⟨rfl, rfl⟩))
  occurrence p mem _ before B after hrhs hB := by
    have hclosed := followClosed_follow wf hfirst h
    refine ⟨_, SetMap.firstOfSequence_eq fun A hA hn => ?_, fun x hx => ?_,
      hclosed.inherits p mem before B after hrhs hB⟩
    · exact hfirst A (wf.defined p mem A (by simp [hrhs, hA]) hn)
    · obtain ⟨hx, hε⟩ := SymbolSet.mem_erase.1 hx
      exact hclosed.starts p mem before B after hrhs hB x hx hε

theorem isLeast_follow :
    IsLeast (SetMap.Solutions g.nonterminals (g.SatisfiesFollow first) seed) N.sets := by
  refine ⟨⟨fun A => by rw [keys_follow wf hfirst h], fun A hA x hx => ?_,
    satisfiesFollow_follow wf hfirst h⟩, ?_⟩
  · exact followSeed_subset_follow wf hfirst h hA x (mem_find_followSeed.2 (Or.inr hx))
  · rintro M ⟨-, hseed, hM⟩
    have hclosed := hM.followClosed
    have hbelow : ∀ A x, x ∈ N.sets.find A → A ∈ g.nonterminals → x ∈ M.find A := by
      refine follow_induction wf hfirst h (fun _ => hM.start) (fun A x hx hA => hseed A hA x hx)
        ?_ ?_
      · intro p mem before B after hrhs hB x hx hε _
        exact hclosed.starts p mem before B after hrhs hB x hx hε
      · intro p mem before B after hrhs hB hε x hx _
        exact hclosed.inherits p mem before B after hrhs hB hε x (hx (lhs_mem_nonterminals mem))
    exact fun A x hx =>
      hbelow A x hx (keys_follow wf hfirst h ▸ SetMap.mem_keys_of_mem_find hx)

end Follow

/-! ## The law of seeds -/

/-- FIRST over a seed is the least map that contains the seed and
satisfies the inclusions of FIRST, and FOLLOW, over any map with a set
for each nonterminal in the place of FIRST, the least that contains the
seed and satisfies those of FOLLOW. -/
theorem seeded_leastOver {pairs : List (Text × List Text)} {g : Grammar}
    (h : load pairs = .ok g) :
    SetMap.LeastOver g.nonterminals g.SatisfiesFirst (fun seed => (g.first seed).sets) ∧
      ∀ first : SetMap, (∀ A ∈ g.nonterminals, A ∈ first.keys) →
        ∃ result : SetMap → Saturation, (∀ seed, g.follow first seed = .ok (result seed)) ∧
          SetMap.LeastOver g.nonterminals (g.SatisfiesFollow first)
            (fun seed => (result seed).sets) := by
  have wf := wellFormed_of_load h
  refine ⟨.of_isLeast (keys_first g) (isLeast_first wf), fun first hfirst => ?_⟩
  choose result hresult using exists_follow wf hfirst
  exact ⟨result, hresult, .of_isLeast (fun seed => keys_follow wf hfirst (hresult seed))
    fun seed => isLeast_follow wf hfirst (hresult seed)⟩

/-- A seed that brings in a foreign symbol and a foreign key, one that
changes nothing, and FOLLOW over sets that are not FIRST. -/
theorem seeded_leastOver_of_foreign_symbols :
    ∃ g, load [("S", ["AB"]), ("A", ["a", "ε"]), ("B", ["Sb"])] = .ok g ∧
      (∀ seed : SetMap, seed = (SetMap.addAll ∅ (.single 'A') (.ofList [.single 'x'])).addAll
          (.single 'Q') (.ofList [.epsilon]) →
        (g.first seed).sets ≠ (g.first ∅).sets ∧
          (g.first (g.first seed).sets).sets = (g.first seed).sets ∧
          ∃ N, g.follow (g.first seed).sets seed = .ok N ∧
            IsLeast (SetMap.Solutions g.nonterminals (g.SatisfiesFollow (g.first seed).sets) seed)
              N.sets) ∧
      (g.first (SetMap.addAll ∅ (.single 'S') (.ofList [.single 'a']))).sets =
        (g.first ∅).sets := by
  have h : load [("S", ["AB"]), ("A", ["a", "ε"]), ("B", ["Sb"])] = .ok _ := rfl
  obtain ⟨hfirst, hfollow⟩ := seeded_leastOver h
  refine ⟨_, h, ?_, ?_⟩
  · rintro seed rfl
    obtain ⟨result, hresult, hleast⟩ := hfollow _ fun A hA => (keys_first _ _).symm ▸ hA
    exact ⟨by decide, hfirst.again _, _, hresult _, hleast.isLeast _⟩
  · exact hfirst.absorbs _ fun A hA => (by decide : ∀ A ∈ nonterminals _,
      ∀ x ∈ (SetMap.find _ A).toList, x ∈ (SetMap.find _ A).toList) A hA

end Grammar

end Predictive
