import Predictive.Proofs.FirstAppearance
import Predictive.Proofs.Grammar.Printed

/-!
# What loading gives

Whether loading succeeds is seen from the pairs: each must be fit by
itself, there must be one, and the letters in the alternatives must be
left-hand sides (`IsLoadable`).

What is loaded then is the pairs merged. The nonterminals are the
left-hand sides in the order in which they first appear, and the
right-hand sides of one are those of all its pairs, each where it first
appears (`merged_eq`). So the whole grammar, its terminals with it, is a
list of first appearances in the pairs (`loaded_exact`).
-/

namespace Predictive

namespace Grammar

variable {pairs : List (Text × List Text)} {pair : Text × List Text} {alternative : Text}
  {A : Symbol} {g : Grammar}

/-! ## Pairs merged -/

/-- The right-hand sides of a nonterminal over all its pairs, each where
it first appears. -/
def bodiesOf (pairs : List (Text × List Text)) (A : Symbol) : List (List Symbol) :=
  ((pairs.filter (headOf · = A)).flatMap fun pair => pair.2.map normalized).eraseDups

theorem appendNew_eraseDups (old new : List (List Symbol)) :
    appendNew old.eraseDups new = (old ++ new).eraseDups := by
  induction new generalizing old with
  | nil => rw [List.append_nil]; rfl
  | cons body new ih =>
    rw [appendNew_cons, ← eraseDups_concat old body, ih, List.append_assoc]
    rfl

theorem bodiesOf_concat (pairs : List (Text × List Text)) (pair : Text × List Text)
    (A : Symbol) :
    bodiesOf (pairs ++ [pair]) A =
      if A = headOf pair then appendNew (bodiesOf pairs A) (pair.2.map normalized)
      else bodiesOf pairs A := by
  rw [bodiesOf, List.filter_append, List.flatMap_append]
  split
  · next h =>
    rw [bodiesOf, appendNew_eraseDups]
    simp [h]
  · next h => simp [bodiesOf, Ne.symm h]

/-- Pairs merged: the left-hand sides and the right-hand sides of each,
in the order in which they first appear. -/
theorem merged_eq (pairs : List (Text × List Text)) :
    (merged pairs).keys = (pairs.map headOf).eraseDups ∧
      ∀ A, ((merged pairs).get? A).getD [] = bodiesOf pairs A := by
  induction pairs using List.reverseRecOn with
  | nil => exact ⟨rfl, fun _ => rfl⟩
  | append_singleton pairs pair ih =>
    obtain ⟨hkeys, hbodies⟩ := ih
    have hmerged : merged (pairs ++ [pair]) = merge (merged pairs) pair := List.foldl_concat ..
    rw [hmerged, merge]
    constructor
    · rw [OrderedMap.keys_alter, hkeys, List.map_append, List.map_singleton, eraseDups_concat]
    · intro A
      rw [OrderedMap.get?_alter, bodiesOf_concat]
      split
      · next hA => rw [← hbodies A, hA]; rfl
      · exact hbodies A

theorem entries_merged (pairs : List (Text × List Text)) :
    (merged pairs).entries = (merged pairs).keys.map fun A => (A, bodiesOf pairs A) := by
  rw [(merged pairs).entries_eq []]
  exact List.map_congr_left fun A _ => congrArg (A, ·) ((merged_eq pairs).2 A)

/-! ## Loading -/

/-- Pairs of which a grammar can be made: there is one, each left-hand
side is a capital letter but for blanks around it, the alternatives can
be read, and each capital letter in them is a left-hand side. -/
structure IsLoadable (pairs : List (Text × List Text)) : Prop where
  ne_nil : pairs ≠ []
  heads : ∀ pair ∈ pairs, ∃ c, Text.strip pair.1 = [c] ∧ 'A' ≤ c ∧ c ≤ 'Z'
  alternatives : ∀ pair ∈ pairs, ∀ alternative ∈ pair.2, IsAlternative alternative
  defined : ∀ pair ∈ pairs, ∀ alternative ∈ pair.2, ∀ c ∈ alternative, 'A' ≤ c → c ≤ 'Z' →
    ∃ pair' ∈ pairs, Text.strip pair'.1 = [c]

theorem headOf_isNonterminal_iff :
    (headOf pair).isNonterminal ↔ ∃ c, Text.strip pair.1 = [c] ∧ 'A' ≤ c ∧ c ≤ 'Z' := by
  simp only [Symbol.isNonterminal_iff, headOf, Symbol.single, Symbol.mk.injEq]

theorem single_mem_normalized {c : CodePoint} (h : (Symbol.single c).isNonterminal) :
    .single c ∈ normalized alternative ↔ c ∈ alternative := by
  obtain ⟨d, he, hvisible, -⟩ := Symbol.exists_single h
  obtain rfl : c = d := by simpa [Symbol.single] using he
  have hkept : c ∈ Text.unblank alternative ↔ c ∈ alternative := by
    rw [Text.unblank, List.mem_filter, hvisible, Bool.not_false, and_iff_left rfl]
  rw [normalized]
  split
  · next hnil =>
    rw [List.mem_singleton, ← hkept, hnil]
    exact iff_of_false (Symbol.ne_epsilon_of_isNonterminal h) List.not_mem_nil
  · rw [single_mem_symbolsOf, hkept]

theorem mem_bodiesOf {body : List Symbol} :
    body ∈ bodiesOf pairs A ↔ ∃ pair ∈ pairs, headOf pair = A ∧
      ∃ alternative ∈ pair.2, normalized alternative = body := by
  simp only [bodiesOf, List.mem_eraseDups, List.mem_flatMap, List.mem_filter,
    decide_eq_true_eq, List.mem_map, and_assoc]

section Merged

variable (hg : g.rules = merged pairs)
include hg

theorem nonterminals_eq : g.nonterminals = (pairs.map headOf).eraseDups := by
  rw [nonterminals, hg, (merged_eq pairs).1]

theorem mem_nonterminals_iff : A ∈ g.nonterminals ↔ ∃ pair ∈ pairs, headOf pair = A := by
  rw [nonterminals_eq hg, List.mem_eraseDups, List.mem_map]

theorem alternatives?_eq (hA : A ∈ g.nonterminals) :
    g.alternatives? A = some ((bodiesOf pairs A).map (⟨A, ·⟩)) := by
  obtain ⟨bodies, hbodies⟩ := OrderedMap.exists_get? hA
  have hmerged := (merged_eq pairs).2 A
  rw [← hg, hbodies] at hmerged
  rw [alternatives?, hbodies, ← hmerged]
  rfl

theorem rules_eq : g.rules.entries = g.nonterminals.map fun A => (A, bodiesOf pairs A) := by
  rw [nonterminals, hg]
  exact entries_merged pairs

theorem mem_productions_iff {p : Production} :
    p ∈ g.productions ↔ p.rhs ∈ bodiesOf pairs p.lhs := by
  rw [mem_productions, rules_eq hg]
  constructor
  · rintro ⟨bodies, hrule, hbody⟩
    obtain ⟨A, -, he⟩ := List.mem_map.1 hrule
    obtain ⟨rfl, rfl⟩ := Prod.mk.inj he
    exact hbody
  · intro hbody
    obtain ⟨pair, hpair, hhead, -⟩ := mem_bodiesOf.1 hbody
    exact ⟨_, List.mem_map.2 ⟨p.lhs, (mem_nonterminals_iff hg).2 ⟨pair, hpair, hhead⟩, rfl⟩, hbody⟩

theorem flatMap_rhs_eq :
    g.productions.flatMap Production.rhs =
      g.nonterminals.flatMap fun A => (bodiesOf pairs A).flatten := by
  rw [productions, rules_eq hg, List.flatMap_assoc, List.flatMap_map]
  simp [List.flatMap_map, List.flatMap_id']

/-- Every letter in use has a rule when every letter in the alternatives
is a left-hand side. -/
theorem defined_iff :
    (∀ p ∈ g.productions, ∀ s ∈ p.rhs, s.isNonterminal → s ∈ g.nonterminals) ↔
      ∀ pair ∈ pairs, ∀ alternative ∈ pair.2, ∀ c ∈ alternative, 'A' ≤ c → c ≤ 'Z' →
        ∃ pair' ∈ pairs, Text.strip pair'.1 = [c] := by
  have hhead : ∀ c : CodePoint, Symbol.single c ∈ g.nonterminals ↔
      ∃ pair ∈ pairs, Text.strip pair.1 = [c] := by
    intro c
    simp only [mem_nonterminals_iff hg, headOf, Symbol.single, Symbol.mk.injEq]
  constructor
  · intro h pair hpair alternative halternative c hc hA hZ
    have hn : (Symbol.single c).isNonterminal := Symbol.isNonterminal_iff.2 ⟨c, rfl, hA, hZ⟩
    have mem : ⟨headOf pair, normalized alternative⟩ ∈ g.productions :=
      (mem_productions_iff hg).2 (mem_bodiesOf.2 ⟨pair, hpair, rfl, alternative, halternative, rfl⟩)
    exact (hhead c).1 (h _ mem _ ((single_mem_normalized hn).2 hc) hn)
  · intro h p mem s hs hn
    obtain ⟨pair, hpair, -, alternative, halternative, hrhs⟩ :=
      mem_bodiesOf.1 ((mem_productions_iff hg).1 mem)
    obtain ⟨c, rfl, hA, hZ⟩ := Symbol.isNonterminal_iff.1 hn
    rw [← hrhs] at hs
    exact (hhead c).2 (h pair hpair alternative halternative c
      ((single_mem_normalized hn).1 hs) hA hZ)

end Merged

theorem exists_load_iff : (∃ g, load pairs = .ok g) ↔ IsLoadable pairs := by
  constructor
  · rintro ⟨g, h⟩
    obtain ⟨hfit, hg, hstart, hdefined⟩ := load_eq_ok_iff.1 h
    refine ⟨?_, fun pair hpair => headOf_isNonterminal_iff.1 (hfit pair hpair).head,
      fun pair hpair => (hfit pair hpair).alternatives, (defined_iff hg).1 hdefined⟩
    rintro rfl
    cases hstart
  · intro h
    obtain ⟨pair, rest, rfl⟩ := List.exists_cons_of_ne_nil h.ne_nil
    refine ⟨⟨headOf pair, merged (pair :: rest)⟩, load_eq_ok_iff.2 ⟨fun pair' hpair' => ?_, rfl,
      ?_, (defined_iff rfl).2 h.defined⟩⟩
    · exact ⟨headOf_isNonterminal_iff.2 (h.heads pair' hpair'), h.alternatives pair' hpair'⟩
    · rw [(merged_eq (pair :: rest)).1, List.map_cons, List.eraseDups_cons]
      rfl

theorem terminals_eq (wf : g.WellFormed) :
    g.terminals = ((g.productions.flatMap Production.rhs).filter
      fun s => s ≠ .epsilon ∧ s ∉ g.nonterminals).eraseDups := by
  rw [terminals, ← List.filter_flatMap]
  refine congrArg List.eraseDups (List.filter_congr fun s hs => ?_)
  obtain ⟨p, mem, hs⟩ := List.mem_flatMap.1 hs
  have hn : s ∈ g.nonterminals ↔ s.isNonterminal :=
    ⟨wf.head_nonterminal s, wf.defined p mem s hs⟩
  rw [Bool.eq_iff_iff, Symbol.isTerminal_iff, decide_eq_true_eq, hn, Bool.not_eq_true, and_comm]

/-- A list of left-hand sides with an alternative or several is loaded
exactly when it is loadable, and otherwise it is refused. The grammar
has the left-hand sides, the first of them as its start symbol, the
right-hand sides of all the pairs of each, and the other symbols of
these as its terminals, everything once and in the order in which it
first appears. -/
theorem loaded_exact (given : List (Text × Alternatives)) :
    ((∃ g, loadGiven given = .ok g) ↔ IsLoadable (listed given)) ∧
      (¬ IsLoadable (listed given) → ∃ e : GrammarError, loadGiven given = .error e) ∧
      ∀ g, loadGiven given = .ok g →
        g.nonterminals = ((listed given).map headOf).eraseDups ∧
        g.nonterminals.head? = some g.start ∧
        (∀ A ∈ g.nonterminals,
          g.alternatives? A = some ((bodiesOf (listed given) A).map (⟨A, ·⟩))) ∧
        g.terminals = ((g.nonterminals.flatMap fun A => (bodiesOf (listed given) A).flatten).filter
          fun s => s ≠ .epsilon ∧ s ∉ g.nonterminals).eraseDups := by
  refine ⟨exists_load_iff, fun hnot => ?_, fun g h => ?_⟩
  · cases hload : loadGiven given with
    | ok g => exact absurd (exists_load_iff.1 ⟨g, hload⟩) hnot
    | error e => exact ⟨e, rfl⟩
  · have wf := wellFormed_of_load h
    obtain ⟨-, hg, -, -⟩ := load_eq_ok_iff.1 h
    refine ⟨nonterminals_eq hg, wf.start_first, fun A hA => alternatives?_eq hg hA, ?_⟩
    rw [terminals_eq wf, flatMap_rhs_eq hg]

/-- A left-hand side that comes again adds what is new. -/
example :
    loadGiven [(" S", .one "a S"), ("A", .list ["", " ε "]), ("S", .list ["aS", "Ab"])] =
      .ok ⟨.single 'S', .ofList
        [(.single 'S', [[.single 'a', .single 'S'], [.single 'A', .single 'b']]),
          (.single 'A', [[.epsilon]])]⟩ := by
  rfl

end Grammar

end Predictive
