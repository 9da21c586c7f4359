import Predictive.Grammar.WellFormed
import Predictive.Proofs.Sets.Growth
import Predictive.Proofs.Sets.Sequence

/-!
# FIRST is what derivations begin with

The FIRST sets that repeated passes arrive at, against derivations of
any length. They are closed under every production
(`firstClosed_first`), and a derivation step adds nothing to FIRST of a
sequence under a closed map, so all that a derivation can begin with is
there (`FirstClosed.of_derives`). Conversely each symbol that a pass
adds is one with which a derivation begins (`FirstOf.of_sequence`).
Left recursion, cycles of vanishing nonterminals and nonterminals
without alternatives need no case of their own.

`mem_first_iff` and `mem_firstOfSequence_iff` are the two readings that
later modules use; neither mentions passes.
-/

namespace Predictive

namespace Grammar

variable {g : Grammar} {seed : SetMap} {f : Symbol → SymbolSet} {l k : List Symbol} {x : Symbol}

/-! ## Closed maps -/

/-- Each nonterminal's set holds FIRST of its right-hand sides. -/
def FirstClosed (g : Grammar) (f : Symbol → SymbolSet) : Prop :=
  ∀ p ∈ g.productions, firstOfSequence f p.rhs ⊆ f p.lhs

/-- What one production adds in a pass. -/
def firstStep (m : SetMap) (p : Production) : SetMap :=
  m.addAll p.lhs (firstOfSequence m.find p.rhs)

theorem firstPass_eq (g : Grammar) : g.firstPass = fun m => g.productions.foldl firstStep m := rfl

theorem growing_firstStep : Growing firstStep where
  grows m p := m.le_addAll p.lhs _
  mono p h := SetMap.addAll_mono h p.lhs (firstOfSequence_mono fun A _ _ => h A)

/-- The symbols that FIRST can hold beside those of its seed. -/
def firstSymbols (g : Grammar) : List Symbol := g.productions.flatMap Production.rhs ++ [.epsilon]

theorem card_firstReach_lt (g : Grammar) (seed : SetMap) :
    (seed.reach g.nonterminals g.firstSymbols).card < g.firstAllowance seed := by
  have hrows : g.nonterminals.length = g.rules.size := by
    simp [nonterminals, OrderedMap.keys, OrderedMap.size]
  have hsymbols : g.firstSymbols.length = tally (·.rhs.length) g.productions + 1 := by
    rw [firstSymbols, List.length_append, length_flatMap_eq_tally]
    rfl
  have hcard := seed.card_reach_lt g.nonterminals g.firstSymbols
  rwa [hrows, hsymbols, ← Nat.add_assoc] at hcard

theorem members_firstStep_subset (seed : SetMap) {m : SetMap} {p : Production}
    (mem : p ∈ g.productions) (hm : m.members ⊆ seed.reach g.nonterminals g.firstSymbols) :
    (firstStep m p).members ⊆ seed.reach g.nonterminals g.firstSymbols := by
  refine SetMap.members_addAll_subset (lhs_mem_nonterminals mem) hm fun s hs => ?_
  rcases mem_firstOfSequence_cases hs with rfl | ⟨hs, -⟩ | ⟨B, -, -, hB⟩
  · exact Or.inl (List.mem_append_right _ (List.mem_singleton_self _))
  · exact Or.inl (List.mem_append_left _ (List.mem_flatMap.2 ⟨p, mem, hs⟩))
  · exact Or.inr ⟨B, hB⟩

/-- The sets of the repetition, before others than the nonterminals'
are dropped, are closed under every production. -/
theorem firstClosed_run (g : Grammar) (seed : SetMap) :
    g.FirstClosed (Saturation.run g.firstPass (g.firstAllowance seed) seed).sets.find := by
  rw [firstPass_eq]
  have hclosed := Saturation.run_closed growing_firstStep
    (fun m p mem => members_firstStep_subset (g := g) seed (m := m) mem)
    (seed.members_subset_reach g.nonterminals g.firstSymbols)
    (Nat.lt_add_right seed.total (card_firstReach_lt g seed))
  intro p mem s hs
  exact SetMap.mem_of_addAll_le (hclosed p mem) hs

theorem find_first {A : Symbol} (hA : A ∈ g.nonterminals) :
    (g.first seed).sets.find A =
      (Saturation.run g.firstPass (g.firstAllowance seed) seed).sets.find A :=
  SetMap.find_restrict hA

theorem firstClosed_first (wf : g.WellFormed) (seed : SetMap) :
    g.FirstClosed (g.first seed).sets.find := by
  intro p mem
  rw [find_first (lhs_mem_nonterminals mem),
    firstOfSequence_congr fun A hA hn => find_first (wf.defined p mem A hA hn)]
  exact firstClosed_run g seed p mem

/-- What holds of the seed and is kept by every production holds of all
that FIRST contains. -/
theorem first_induction {R : Symbol → Symbol → Prop}
    (hseed : ∀ A s, s ∈ seed.find A → R A s)
    (hstep : ∀ f : Symbol → SymbolSet, (∀ A s, s ∈ f A → R A s) → ∀ p ∈ g.productions,
      ∀ s ∈ firstOfSequence f p.rhs, R p.lhs s) :
    ∀ A s, s ∈ (g.first seed).sets.find A → R A s := by
  have hrun := Saturation.run_induction firstStep g.productions
    (fun m => ∀ A s, s ∈ m.find A → R A s)
    (fun m p mem hm A s hs => by
      rcases SetMap.mem_find_addAll.1 hs with hold | ⟨rfl, hnew⟩
      · exact hm A s hold
      · exact hstep m.find hm p mem s hnew)
    (g.firstAllowance seed) hseed
  intro A s hs
  exact hrun A s (SetMap.restrict_le _ _ A s hs)

theorem keys_first (g : Grammar) (seed : SetMap) : (g.first seed).sets.keys = g.nonterminals :=
  SetMap.keys_restrict _ (OrderedMap.nodup_keys _)

theorem get?_first {A : Symbol} (hA : A ∈ g.nonterminals) :
    (g.first seed).sets.get? A = some ((g.first seed).sets.find A) :=
  SetMap.get?_of_mem ((keys_first g seed).symm ▸ hA)

/-! ## Completeness -/

namespace FirstClosed

theorem of_produces (wf : g.WellFormed) (hf : g.FirstClosed f) (h : g.Produces l k) :
    firstOfSequence f k ⊆ firstOfSequence f l := by
  obtain ⟨before, after, p, mem⟩ := h
  have hn := wf.lhs_isNonterminal mem
  have hbody : firstOfSequence f p.expansion ⊆ firstOfSequence f [p.lhs] := by
    intro x hx
    rw [wf.firstOfSequence_expansion mem] at hx
    exact (mem_firstOfSequence_nonterminal hn).2 (hf p mem x hx)
  intro x hx
  rw [List.append_assoc] at hx
  rw [List.append_cons, List.append_assoc]
  -- only the middle part of the sequence differs, and ε is among what it may lose
  rcases mem_firstOfSequence_append.1 hx with hb | ⟨hb, hx⟩
  · exact mem_firstOfSequence_append.2 (Or.inl hb)
  · refine mem_firstOfSequence_append.2 (Or.inr ⟨hb, ?_⟩)
    rcases mem_firstOfSequence_append.1 hx with ⟨he, hne⟩ | ⟨he, ha⟩
    · exact mem_firstOfSequence_append.2 (Or.inl ⟨hbody x he, hne⟩)
    · exact mem_firstOfSequence_append.2 (Or.inr ⟨hbody _ he, ha⟩)

theorem of_derives (wf : g.WellFormed) (hf : g.FirstClosed f) (h : g.Derives l k) :
    firstOfSequence f k ⊆ firstOfSequence f l := by
  induction h with
  | refl => exact fun _ hx => hx
  | head step _ ih => exact fun x hx => hf.of_produces wf step x (ih x hx)

theorem epsilon_mem (wf : g.WellFormed) (hf : g.FirstClosed f) (h : g.Vanishes l) :
    .epsilon ∈ firstOfSequence f l :=
  hf.of_derives wf h _ (SymbolSet.mem_single.2 rfl)

theorem mem_of_begins (wf : g.WellFormed) (hf : g.FirstClosed f) (hx : x.isTerminal)
    (h : g.Begins l x) : x ∈ firstOfSequence f l := by
  obtain ⟨rest, hd⟩ := h
  have hne := (Symbol.isTerminal_iff.1 hx).2
  refine hf.of_derives wf hd _ (mem_firstOfSequence_cons.2 (Or.inl ⟨?_, hne⟩))
  exact (mem_firstOfSequence_terminal hx).2 rfl

end FirstClosed

/-! ## Origins -/

/-- Each member of FIRST was brought in by a production, over members
that were there before. -/
theorem first_induction_mem (wf : g.WellFormed) {R : Symbol → Symbol → Prop}
    (hstep : ∀ f : Symbol → SymbolSet, (∀ A s, s ∈ f A → s ∈ (g.first ∅).sets.find A ∧ R A s) →
      ∀ p ∈ g.productions, ∀ s ∈ firstOfSequence f p.rhs,
        s ∈ firstOfSequence (g.first ∅).sets.find p.rhs → R p.lhs s) :
    ∀ A s, s ∈ (g.first ∅).sets.find A → R A s := by
  have hmem : ∀ A s, s ∈ (g.first ∅).sets.find A → s ∈ (g.first ∅).sets.find A ∧ R A s := by
    refine first_induction (fun A s hs => absurd hs (SymbolSet.not_mem_empty s)) ?_
    intro f hf p mem s hs
    have hfinal := firstOfSequence_mono (fun A _ _ x hx => (hf A x hx).1) s hs
    exact ⟨firstClosed_first wf ∅ p mem s hfinal, hstep f hf p mem s hs hfinal⟩
  exact fun A s hs => (hmem A s hs).2

/-- What is in FIRST of a nonterminal is in FIRST of one of its
right-hand sides. -/
theorem exists_production_of_mem_first (wf : g.WellFormed) {A : Symbol}
    (h : x ∈ (g.first ∅).sets.find A) :
    ∃ p ∈ g.productions, p.lhs = A ∧ x ∈ firstOfSequence (g.first ∅).sets.find p.rhs :=
  first_induction_mem wf (R := fun A x => ∃ p ∈ g.productions, p.lhs = A ∧
    x ∈ firstOfSequence (g.first ∅).sets.find p.rhs)
    (fun _ _ p mem _ _ hs => ⟨p, mem, rfl, hs⟩) A x h

/-! ## Soundness -/

/-- What belongs in FIRST of a sequence: the terminals that begin what
it derives, and ε when it can vanish. -/
def FirstOf (g : Grammar) (l : List Symbol) (x : Symbol) : Prop :=
  (x ∈ g.terminals ∧ g.Begins l x) ∨ (x = .epsilon ∧ g.Vanishes l)

namespace FirstOf

theorem begins (h : g.FirstOf l x) (hx : x ≠ .epsilon) :
    x ∈ g.terminals ∧ g.Begins l x :=
  h.resolve_right fun h => hx h.1

theorem vanishes (wf : g.WellFormed) (h : g.FirstOf l .epsilon) : g.Vanishes l := by
  rcases h with ⟨ht, -⟩ | ⟨-, h⟩
  · exact absurd (Or.inr ht) wf.epsilon_not_isKnown
  · exact h

theorem append (h : g.FirstOf l x) (hx : x ≠ .epsilon) (k : List Symbol) :
    g.FirstOf (l ++ k) x := by
  rcases h with ⟨ht, h⟩ | ⟨he, -⟩
  · exact Or.inl ⟨ht, h.append k⟩
  · exact absurd he hx

theorem append_of_vanishes (h : g.FirstOf k x) (hl : g.Vanishes l) : g.FirstOf (l ++ k) x := by
  rcases h with ⟨ht, h⟩ | ⟨he, h⟩
  · exact Or.inl ⟨ht, hl.begins_append h⟩
  · exact Or.inr ⟨he, hl.append h⟩

theorem of_sequence (wf : g.WellFormed) (hf : ∀ A s, s ∈ f A → g.FirstOf [A] s)
    (hl : ∀ s ∈ l, g.IsKnown s ∨ s = .epsilon) (hx : x ∈ firstOfSequence f l) :
    g.FirstOf (l.filter (· != .epsilon)) x := by
  induction l generalizing x with
  | nil => exact Or.inr ⟨SymbolSet.mem_single.1 hx, .nil⟩
  | cons s l ih =>
    have hrest := fun x => ih (x := x) fun t ht => hl t (List.mem_cons_of_mem _ ht)
    by_cases hs : s = .epsilon
    · subst hs
      rw [List.filter_cons_of_neg (by simp)]
      rw [firstOfSequence, if_pos rfl] at hx
      exact hrest x hx
    · rw [List.filter_cons_of_pos (by simp [hs]), ← List.singleton_append]
      have hhead : ∀ y ∈ firstOfSequence f [s], g.FirstOf [s] y := by
        intro y hy
        rcases s.kind_cases with hn | ht | hε
        · exact hf s y ((mem_firstOfSequence_nonterminal hn).1 hy)
        · obtain rfl := (mem_firstOfSequence_terminal ht).1 hy
          rcases hl y (List.mem_cons_self ..) with (hk | hk) | hk
          · have hn := wf.head_nonterminal _ hk
            rw [(Symbol.isTerminal_iff.1 ht).1] at hn
            cases hn
          · exact Or.inl ⟨hk, .cons y []⟩
          · exact absurd hk hs
        · exact absurd hε hs
      rcases mem_firstOfSequence_cons.1 hx with ⟨hy, hne⟩ | ⟨hε, hy⟩
      · exact (hhead x hy).append hne _
      · exact (hrest x hy).append_of_vanishes ((hhead _ hε).vanishes wf)

end FirstOf

theorem FirstOf.of_mem_first (wf : g.WellFormed) :
    ∀ A s, s ∈ (g.first ∅).sets.find A → g.FirstOf [A] s := by
  refine first_induction (fun A s hs => absurd hs (SymbolSet.not_mem_empty s)) ?_
  intro f hf p mem s hs
  have hrhs : ∀ t ∈ p.rhs, g.IsKnown t ∨ t = .epsilon := by
    intro t ht
    by_cases hε : t = .epsilon
    · exact Or.inr hε
    · exact Or.inl (wf.isKnown_of_mem_rhs mem ht hε)
  have hof := FirstOf.of_sequence wf hf hrhs hs
  rw [← wf.expansion_eq_filter mem] at hof
  rcases hof with ⟨ht, rest, hd⟩ | ⟨he, hd⟩
  · exact Or.inl ⟨ht, rest, (Derives.of_mem mem).trans hd⟩
  · exact Or.inr ⟨he, (Derives.of_mem mem).trans hd⟩

/-! ## Both directions -/

theorem mem_firstOfSequence_iff (wf : g.WellFormed)
    (hl : ∀ s ∈ l, g.IsKnown s ∨ s = .epsilon) :
    x ∈ firstOfSequence (g.first ∅).sets.find l ↔
      g.FirstOf (l.filter (· != .epsilon)) x := by
  refine ⟨FirstOf.of_sequence wf (FirstOf.of_mem_first wf) hl, fun h => ?_⟩
  have hclosed := firstClosed_first wf ∅
  rw [← firstOfSequence_filter]
  rcases h with ⟨ht, h⟩ | ⟨rfl, h⟩
  · exact hclosed.mem_of_begins wf (isTerminal_of_mem ht) h
  · exact hclosed.epsilon_mem wf h

theorem mem_firstOfSequence_rhs_iff (wf : g.WellFormed) {p : Production}
    (mem : p ∈ g.productions) :
    x ∈ firstOfSequence (g.first ∅).sets.find p.rhs ↔ g.FirstOf p.expansion x := by
  rw [wf.expansion_eq_filter mem]
  refine mem_firstOfSequence_iff wf fun s hs => ?_
  by_cases hε : s = .epsilon
  · exact Or.inr hε
  · exact Or.inl (wf.isKnown_of_mem_rhs mem hs hε)

theorem epsilon_mem_iff_vanishes (wf : g.WellFormed) {p : Production} (mem : p ∈ g.productions) :
    .epsilon ∈ firstOfSequence (g.first ∅).sets.find p.rhs ↔ g.Vanishes p.expansion :=
  (mem_firstOfSequence_rhs_iff wf mem).trans
    ⟨fun h => h.vanishes wf, fun h => Or.inr ⟨rfl, h⟩⟩

theorem mem_first_iff (wf : g.WellFormed) {A : Symbol} (hA : A ∈ g.nonterminals) :
    x ∈ (g.first ∅).sets.find A ↔ g.FirstOf [A] x := by
  have hn := wf.head_nonterminal A hA
  have hknown : ∀ s ∈ [A], g.IsKnown s ∨ s = .epsilon := by
    intro s hs
    exact Or.inl (Or.inl (List.mem_singleton.1 hs ▸ hA))
  rw [← mem_firstOfSequence_nonterminal hn, mem_firstOfSequence_iff wf hknown,
    List.filter_cons_of_pos (by simpa using Symbol.ne_epsilon_of_isNonterminal hn)]
  rfl

theorem firstOfSequence_first_eq (hl : ∀ s ∈ l, s.isNonterminal → s ∈ g.nonterminals) :
    (g.first seed).sets.firstOfSequence l =
      .ok (firstOfSequence (g.first seed).sets.find l) :=
  SetMap.firstOfSequence_eq fun A hA hn => by
    rw [keys_first]
    exact hl A hA hn

/-! ## The law of FIRST -/

/-- The computed FIRST sets are the derivational ones, of each
nonterminal and of each sequence of symbols of the grammar, in which an
ε stands for nothing. -/
theorem mem_first_iff_derives {pairs : List (Text × List Text)} {g : Grammar}
    (h : load pairs = .ok g) :
    (g.first ∅).sets.keys = g.nonterminals ∧
      (∀ A ∈ g.nonterminals, ∃ S, (g.first ∅).sets.get? A = some S ∧
        ∀ x, x ∈ S ↔ (x ∈ g.terminals ∧ ∃ rest, g.Derives [A] (x :: rest)) ∨
          (x = .epsilon ∧ g.Derives [A] [])) ∧
      ∀ l : List Symbol, (∀ s ∈ l, s ∈ g.nonterminals ∨ s ∈ g.terminals ∨ s = .epsilon) →
        ∃ S, (g.first ∅).sets.firstOfSequence l = .ok S ∧
          ∀ x, x ∈ S ↔
            (x ∈ g.terminals ∧ ∃ rest, g.Derives (l.filter (· != .epsilon)) (x :: rest)) ∨
              (x = .epsilon ∧ g.Derives (l.filter (· != .epsilon)) []) := by
  have wf := wellFormed_of_load h
  refine ⟨keys_first g ∅, fun A hA => ?_, fun l hl => ?_⟩
  · exact ⟨_, get?_first hA, fun x => mem_first_iff wf hA⟩
  · have hdefined : ∀ s ∈ l, s.isNonterminal → s ∈ g.nonterminals := by
      intro s hs hn
      rcases hl s hs with h | h | rfl
      · exact h
      · rw [(Symbol.isTerminal_iff.1 (isTerminal_of_mem h)).1] at hn
        cases hn
      · simp at hn
    have hknown : ∀ s ∈ l, g.IsKnown s ∨ s = .epsilon := fun s hs => or_assoc.2 (hl s hs)
    exact ⟨_, firstOfSequence_first_eq hdefined, fun x => mem_firstOfSequence_iff wf hknown⟩

/-- A left-recursive start symbol over a cycle of vanishing
nonterminals, one nonterminal without a word, one without
alternatives. -/
theorem mem_first_iff_derives_of_left_recursion :
    ∃ g, load [("S", ["AB", "Sa"]), ("A", ["ε", "BA"]), ("B", ["b", "A"]), ("C", ["Cc"]),
        ("D", [])] = .ok g ∧
      (∃ rest, g.Derives [.single 'S'] (.single 'a' :: rest)) ∧
      g.Derives [.single 'S'] [] ∧
      (∀ rest, ¬ g.Derives [.single 'C'] (.single 'c' :: rest)) ∧
      ∃ rest, g.Derives [.single 'A', .single 'C', .single 'c'] (.single 'b' :: rest) := by
  have h : load [("S", ["AB", "Sa"]), ("A", ["ε", "BA"]), ("B", ["b", "A"]), ("C", ["Cc"]),
      ("D", [])] = .ok _ := rfl
  refine ⟨_, h, ?_⟩
  obtain ⟨-, hfirst, hsequence⟩ := mem_first_iff_derives h
  obtain ⟨S, hS, mem_S⟩ := hfirst (.single 'S') (by decide)
  obtain ⟨C, hC, mem_C⟩ := hfirst (.single 'C') (by decide)
  obtain ⟨T, hT, mem_T⟩ := hsequence [.single 'A', .single 'C', .single 'c'] (by decide)
  obtain rfl := Option.some.inj hS
  obtain rfl := Option.some.inj hC
  obtain rfl := Except.ok.inj hT
  refine ⟨?_, ?_, fun rest hd => ?_, ?_⟩
  · exact ((mem_S (.single 'a')).1 (by decide)).elim And.right fun h => absurd h.1 (by decide)
  · exact ((mem_S .epsilon).1 (by decide)).elim (fun h => absurd h.1 (by decide)) And.right
  · exact absurd ((mem_C (.single 'c')).2 (Or.inl ⟨by decide, rest, hd⟩)) (by decide)
  · exact ((mem_T (.single 'b')).1 (by decide)).elim And.right fun h => absurd h.1 (by decide)
end Grammar

end Predictive
