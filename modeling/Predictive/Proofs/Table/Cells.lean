import Predictive.Proofs.Conflict.Collisions
import Predictive.Proofs.Conflict.Listing

/-!
# The cells of the table of a grammar

A cell of the table that a study gives holds the alternatives of its row
that its column calls for, as the definition of the table has it
(`Production.CalledBy`), in the order of declaration, and the last of
them is the one that counts.

No cell lies outside the table, and a column is no ε: what begins a word
is a terminal of the grammar, and what follows one is a terminal or the
end marker (`columns_cases`). The end marker begins nothing, so nothing
but productions for the empty word stands in its column.
-/

namespace Predictive

/-- A symbol calls for a production for the empty word when it can
follow the left-hand side, and for any other when the first symbol is
that symbol or begins with it. -/
def Production.CalledBy (first follow : SetMap) (p : Production) (a : Symbol) : Prop :=
  (p.rhs = [.epsilon] ∧ a ∈ follow.find p.lhs) ∨
    (p.rhs ≠ [.epsilon] ∧ ∃ X ∈ p.rhs.head?,
      (X.isTerminal ∧ a = X) ∨ (X.isNonterminal ∧ a ∈ first.find X ∧ a ≠ .epsilon))

instance (first follow : SetMap) (p : Production) (a : Symbol) :
    Decidable (p.CalledBy first follow a) :=
  inferInstanceAs (Decidable (_ ∨ _))

namespace Grammar

variable {pairs : List (Text × List Text)} {g : Grammar} {A a : Symbol} {p : Production}
  {ps : List Production} {first follow : SetMap}

theorem alternatives?_of_mem (h : A ∈ g.nonterminals) : ∃ ps, g.alternatives? A = some ps := by
  obtain ⟨bodies, hbodies⟩ := OrderedMap.exists_get? h
  exact ⟨_, congrArg (Option.map _) hbodies⟩

theorem filter_lhs_eq_nil {rules : List (Symbol × List (List Symbol))}
    (hA : A ∉ rules.map Prod.fst) :
    (rules.flatMap fun rule => rule.2.map (Production.mk rule.1)).filter (·.lhs = A) = [] := by
  refine List.filter_eq_nil_iff.2 fun p hp he => hA ?_
  obtain ⟨rule, hrule, hbody⟩ := List.mem_flatMap.1 hp
  obtain ⟨body, -, rfl⟩ := List.mem_map.1 hbody
  exact List.mem_map.2 ⟨rule, hrule, of_decide_eq_true he⟩

theorem filter_productions (h : g.alternatives? A = some ps) :
    g.productions.filter (·.lhs = A) = ps := by
  obtain ⟨bodies, hbodies, rfl⟩ := Option.map_eq_some_iff.1 h
  obtain ⟨before, after, hsplit⟩ := List.append_of_mem (OrderedMap.get?_eq_some.1 hbodies)
  have hnodup := g.rules.nodup
  rw [hsplit, List.map_append, List.map_cons, List.nodup_middle, List.nodup_cons,
    List.mem_append, not_or] at hnodup
  have hrow : (bodies.map (Production.mk A)).filter (·.lhs = A) = bodies.map (Production.mk A) :=
    List.filter_eq_self.2 fun p hp => by
      obtain ⟨body, -, rfl⟩ := List.mem_map.1 hp
      exact decide_eq_true rfl
  show (g.rules.entries.flatMap fun rule => rule.2.map (Production.mk rule.1)).filter _ = _
  rw [hsplit, List.flatMap_append, List.flatMap_cons, List.filter_append, List.filter_append,
    filter_lhs_eq_nil hnodup.1.1, filter_lhs_eq_nil hnodup.1.2, hrow, List.append_nil,
    List.nil_append]

theorem mem_columns_iff_calledBy (wf : g.WellFormed) (mem : p ∈ g.productions) :
    a ∈ p.columns first.find follow.find ↔ p.CalledBy first follow a := by
  cases hp : p.isEpsilon with
  | true =>
    have hrhs := Production.isEpsilon_iff.1 hp
    rw [WellFormed.mem_columns_epsilon hp, Production.CalledBy]
    simp [hrhs]
  | false =>
    have hne : p.rhs ≠ [.epsilon] := fun he => by
      rw [Production.isEpsilon_iff.2 he] at hp
      cases hp
    obtain ⟨X, rest, hrhs⟩ := List.exists_cons_of_ne_nil (wf.normal p mem).ne_nil
    have hcalled : p.CalledBy first follow a ↔
        (X.isTerminal ∧ a = X) ∨ (X.isNonterminal ∧ a ∈ first.find X ∧ a ≠ .epsilon) := by
      rw [Production.CalledBy, or_iff_right fun h => hne h.1, and_iff_right hne, hrhs]
      simp only [List.head?_cons, Option.mem_def, Option.some.injEq, exists_eq_left']
    have hε : X ≠ .epsilon := wf.ne_epsilon_of_mem_rhs mem hp (by simp [hrhs])
    rw [wf.mem_columns mem hp hrhs, hcalled]
    rcases X.kind_cases with hn | ht | he
    · have ht : ¬ X.isTerminal := fun ht => by
        rw [(Symbol.isTerminal_iff.1 ht).1] at hn
        cases hn
      rw [mem_firstOfSequence_nonterminal hn, or_iff_right fun h => ht h.1, and_iff_right hn]
    · have hn : ¬ X.isNonterminal := by simp [(Symbol.isTerminal_iff.1 ht).1]
      rw [mem_firstOfSequence_terminal ht, or_iff_left fun h => hn h.1, and_iff_right ht]
      exact and_iff_left_of_imp fun he => he ▸ hε
    · exact absurd he hε

end Grammar

namespace Study.IsOf

variable {g : Grammar} {s : Study} (hs : s.IsOf g) (wf : g.WellFormed) {A a : Symbol}
  {p : Production}
include hs wf

/-- What calls for a production is a terminal of the grammar, or the end
marker behind a left-hand side that vanishes. -/
theorem columns_cases (mem : p ∈ g.productions)
    (ha : a ∈ p.columns s.first.sets.find s.follow.sets.find) :
    a ∈ g.terminals ∨ (p.isEpsilon ∧ a = .endMarker) := by
  cases hp : p.isEpsilon with
  | true =>
    rw [Grammar.WellFormed.mem_columns_epsilon hp,
      hs.mem_follow_iff wf (Grammar.lhs_mem_nonterminals mem)] at ha
    exact ha.imp And.left fun h => ⟨rfl, h.1⟩
  | false =>
    obtain ⟨hbody, hε⟩ := wf.mem_firstOfSequence_of_columns mem hp ha
    rw [hs.first, Grammar.mem_firstOfSequence_rhs_iff wf mem] at hbody
    exact Or.inl (hbody.begins hε).1

/-- The writers of a cell are the alternatives of its row that its
column calls for. -/
theorem writers_eq {ps : List Production} (hps : g.alternatives? A = some ps) (a : Symbol) :
    s.table.writers A a =
      ps.filter fun p => p.CalledBy s.first.sets s.follow.sets a := by
  rw [Grammar.writers_table wf (fun _ => hs.mem_keys_first) (fun _ => hs.mem_keys_follow wf)
    hs.table, ← Grammar.filter_productions hps, List.filter_filter]
  refine List.filter_congr fun p mem => ?_
  rw [← Bool.decide_and, decide_eq_decide, Grammar.mem_columns_iff_calledBy wf mem, and_comm]

end Study.IsOf

/-- In the table of a loaded grammar the writers of a cell are the
alternatives of its row that its column calls for, each once and in the
order of declaration, and the cell has the last of them. A cell lies in
a row of the grammar and in the column of a terminal or of the end
marker, and under the end marker stand productions for the empty word
alone. -/
theorem Grammar.table_exact {pairs : List (Text × List Text)} {g : Grammar}
    (h : load pairs = .ok g) :
    ∃ s, g.study = .ok s ∧
      (∀ A ∈ g.nonterminals, ∃ ps, g.alternatives? A = some ps ∧ ∀ a,
        s.table.writers A a =
          ps.filter (fun p => p.CalledBy s.first.sets s.follow.sets a) ∧
        (s.table.writers A a).Nodup ∧
        s.table.get? A a = (s.table.writers A a).getLast?) ∧
      (∀ place ∈ s.table.keys, place.row ∈ g.nonterminals ∧
        place.column ∈ g.terminals ++ [.endMarker] ∧ place.column ≠ .epsilon) ∧
      ∀ A, ∀ p ∈ s.table.writers A .endMarker, p.isEpsilon := by
  have wf := wellFormed_of_load h
  obtain ⟨s, hs, hof⟩ := exists_study wf
  refine ⟨s, hs, fun A hA => ?_, fun place hplace => ?_, fun A p hp => ?_⟩
  · obtain ⟨ps, hps⟩ := alternatives?_of_mem hA
    exact ⟨ps, hps, fun a => ⟨hof.writers_eq wf hps a, hof.nodup_writers wf,
      get?_table wf (fun _ => hof.mem_keys_first) (fun _ => hof.mem_keys_follow wf) hof.table A a⟩⟩
  · obtain ⟨p, hp⟩ := ParsingTable.mem_keys.1 hplace
    obtain ⟨mem, hrow, hcolumn⟩ := (hof.mem_writers wf).1 hp
    refine ⟨hrow ▸ lhs_mem_nonterminals mem, ?_⟩
    rcases hof.columns_cases wf mem hcolumn with ht | ⟨-, he⟩
    · exact ⟨List.mem_append_left _ ht, (Symbol.isTerminal_iff.1 (isTerminal_of_mem ht)).2⟩
    · exact ⟨by simp [he], by rw [he]; decide⟩
  · obtain ⟨mem, -, hcolumn⟩ := (hof.mem_writers wf).1 hp
    rcases hof.columns_cases wf mem hcolumn with ht | ⟨hε, -⟩
    · exact absurd (Or.inr ht) wf.endMarker_not_isKnown
    · exact hε

/-- A cell with two writers, of which the later one vanishes. -/
theorem Grammar.table_exact_of_collision :
    ∃ g s, load [("S", ["XA", "Xb"]), ("X", ["a", "ε"]), ("A", ["aA", "ε"])] = .ok g ∧
      g.study = .ok s ∧
      s.table.writers (.single 'X') (.single 'a') =
        [⟨.single 'X', [.single 'a']⟩, ⟨.single 'X', [.epsilon]⟩] ∧
      s.table.get? (.single 'X') (.single 'a') = some ⟨.single 'X', [.epsilon]⟩ ∧
      s.table.writers (.single 'A') .endMarker ≠ [] ∧
      ∀ p ∈ s.table.writers (.single 'A') .endMarker, p.isEpsilon := by
  obtain ⟨g, h⟩ : ∃ g, load [("S", ["XA", "Xb"]), ("X", ["a", "ε"]), ("A", ["aA", "ε"])] = .ok g :=
    ⟨_, rfl⟩
  obtain ⟨s, hs, hcells, -, hend⟩ := table_exact h
  have hfacts : (decide (.single 'X' ∈ g.nonterminals),
      s.table.writers (.single 'X') (.single 'a'),
      decide (s.table.writers (.single 'A') .endMarker ≠ [])) =
      (true, [⟨.single 'X', [.single 'a']⟩, ⟨.single 'X', [.epsilon]⟩], true) := by
    apply computed_eq (f := fun g s => (decide (.single 'X' ∈ g.nonterminals),
      s.table.writers (.single 'X') (.single 'a'),
      decide (s.table.writers (.single 'A') .endMarker ≠ []))) h hs
    decide +kernel
  simp only [Prod.mk.injEq, decide_eq_true_eq] at hfacts
  obtain ⟨hX, hwriters, hne⟩ := hfacts
  obtain ⟨_, -, hrow⟩ := hcells _ hX
  obtain ⟨-, -, hget⟩ := hrow (.single 'a')
  rw [hwriters] at hget
  exact ⟨g, s, h, hs, hwriters, hget, hne, hend _⟩

end Predictive
