import Predictive.Proofs.Study
import Predictive.Proofs.Table.Clash

/-!
# Conflicts and collisions

The search for conflicts reads whole right-hand sides, the table only
their first symbols. What the table shows the search has found too:
each collision is explained by a conflict (`exists_conflict_of_collision`).

The converse needs that no right-hand side begins with a nonterminal
that can vanish. Then FIRST of a right-hand side is FIRST of its first
symbol (`mem_columns_of_mem_first`), only a production for the empty
word vanishes (`isEpsilon_of_epsilon_mem`), and every terminal of a
conflict is a column in which two productions meet
(`collision_of_mem_conflicts`).
-/

namespace Predictive

namespace Study.IsOf

variable {g : Grammar} {s : Study} {A a : Symbol} {p : Production}

theorem nodup_writers (hs : s.IsOf g) (wf : g.WellFormed) : (s.table.writers A a).Nodup := by
  rw [Grammar.writers_table wf (fun _ => hs.mem_keys_first) (fun _ => hs.mem_keys_follow wf)
    hs.table]
  exact (Grammar.nodup_productions wf).filter _

theorem one_lt_length_writers_iff (hs : s.IsOf g) (wf : g.WellFormed) :
    1 < (s.table.writers A a).length ↔
      ∃ p ∈ s.table.writers A a, ∃ q ∈ s.table.writers A a, p ≠ q :=
  one_lt_length_iff_exists_ne (hs.nodup_writers wf)

theorem mem_writers (hs : s.IsOf g) (wf : g.WellFormed) :
    p ∈ s.table.writers A a ↔ p ∈ g.productions ∧ p.lhs = A ∧
      a ∈ p.columns s.first.sets.find s.follow.sets.find :=
  Grammar.mem_writers_table wf (fun _ => hs.mem_keys_first) (fun _ => hs.mem_keys_follow wf)
    hs.table

/-! ## Collisions are conflicts -/

theorem exists_conflict_of_collision (hs : s.IsOf g) (wf : g.WellFormed)
    (h : 1 < (s.table.writers A a).length) :
    ∃ c ∈ s.conflicts, c.nonterminal = A ∧ a ∈ c.terminals := by
  have hfirst : ∀ A ∈ g.nonterminals, A ∈ s.first.sets.keys := fun _ => hs.mem_keys_first
  have hfollow : ∀ A ∈ g.nonterminals, A ∈ s.follow.sets.keys := fun _ => hs.mem_keys_follow wf
  obtain ⟨p, hp, q, hq, hne⟩ := (hs.one_lt_length_writers_iff wf).1 h
  obtain ⟨hpg, rfl, hpa⟩ := (hs.mem_writers wf).1 hp
  obtain ⟨hqg, hlhs, hqa⟩ := (hs.mem_writers wf).1 hq
  obtain ⟨haε, ⟨hpfirst, hqfirst⟩ | ⟨hε, hbegins, hbehind⟩⟩ :=
    Grammar.clash_of_columns wf (hs.firstClosed wf) hpg hqg hlhs.symm hne hpa hqa
  · obtain ⟨S, haS, hc | hc⟩ := Grammar.exists_firstFirst wf hfirst hfollow hs.conflicts hpg hqg
      hlhs.symm hne hpfirst hqfirst haε
    · exact ⟨_, hc, rfl, haS⟩
    · exact ⟨_, hc, rfl, haS⟩
  · obtain ⟨S, haS, hc⟩ := Grammar.exists_firstFollow wf hfirst hfollow hs.conflicts
      (Grammar.lhs_mem_nonterminals hpg) hε hbegins hbehind haε
    exact ⟨_, hc, rfl, haS⟩

theorem collisions_eq_nil (hs : s.IsOf g) (wf : g.WellFormed) (hll1 : s.isLL1) :
    s.table.collisions = [] := by
  rw [ParsingTable.collisions_eq_nil_iff]
  intro A a
  by_contra hlength
  obtain ⟨c, hc, -⟩ := hs.exists_conflict_of_collision wf (Nat.lt_of_not_le hlength)
  rw [List.isEmpty_iff.1 hll1] at hc
  cases hc

end Study.IsOf

/-! ## Conflicts are collisions -/

namespace Grammar.HeadsStay

variable {g : Grammar} {p : Production} {a : Symbol} {n : Symbol → SymbolSet}

theorem epsilon_not_mem_head (wf : g.WellFormed) (h : g.HeadsStay) (mem : p ∈ g.productions)
    (hp : p.isEpsilon = false) {head : Symbol} {rest : List Symbol} (hrhs : p.rhs = head :: rest) :
    .epsilon ∉ firstOfSequence (g.first ∅).sets.find [head] := by
  have hin : head ∈ p.rhs := by simp [hrhs]
  rcases head.kind_cases with hn | ht | rfl
  · rw [mem_firstOfSequence_nonterminal hn, mem_first_iff wf (wf.defined p mem head hin hn)]
    exact fun hε => h p mem head (by simp [hrhs]) hn (hε.vanishes wf)
  · rw [mem_firstOfSequence_terminal ht]
    exact fun he => (Symbol.isTerminal_iff.1 ht).2 he.symm
  · exact absurd rfl (wf.ne_epsilon_of_mem_rhs mem hp hin)

theorem isEpsilon_of_epsilon_mem (wf : g.WellFormed) (h : g.HeadsStay) (mem : p ∈ g.productions)
    (hε : .epsilon ∈ firstOfSequence (g.first ∅).sets.find p.rhs) : p.isEpsilon := by
  by_contra hp
  rw [Bool.not_eq_true] at hp
  obtain ⟨head, rest, hrhs⟩ := List.exists_cons_of_ne_nil (wf.normal p mem).ne_nil
  rw [hrhs, ← List.singleton_append, epsilon_mem_firstOfSequence_append] at hε
  exact h.epsilon_not_mem_head wf mem hp hrhs hε.1

theorem mem_columns_of_mem_first (wf : g.WellFormed) (h : g.HeadsStay) (mem : p ∈ g.productions)
    (ha : a ∈ firstOfSequence (g.first ∅).sets.find p.rhs) (haε : a ≠ .epsilon) :
    p.isEpsilon = false ∧ a ∈ p.columns (g.first ∅).sets.find n := by
  have hp : p.isEpsilon = false := by
    rw [Bool.eq_false_iff]
    intro hp
    rw [Production.isEpsilon_iff.1 hp] at ha
    exact haε (mem_firstOfSequence_epsilon.1 ha)
  obtain ⟨head, rest, hrhs⟩ := List.exists_cons_of_ne_nil (wf.normal p mem).ne_nil
  rw [hrhs] at ha
  rcases mem_firstOfSequence_cons.1 ha with hhead | ⟨hε, -⟩
  · exact ⟨hp, (wf.mem_columns mem hp hrhs).2 hhead⟩
  · exact absurd hε (h.epsilon_not_mem_head wf mem hp hrhs)

end Grammar.HeadsStay

namespace Study.IsOf

variable {g : Grammar} {s : Study}

/-- The terminals of a conflict are columns in which two productions
meet, the two that it names among them. -/
theorem collision_of_mem_conflicts (hs : s.IsOf g) (wf : g.WellFormed) (h : g.HeadsStay)
    {c : Conflict} (hc : c ∈ s.conflicts) {t : Symbol} (ht : t ∈ c.terminals) :
    1 < (s.table.writers c.nonterminal t).length ∧
      ∀ p ∈ c.productions, p ∈ s.table.writers c.nonterminal t := by
  have hreports := Grammar.reports_of_mem_conflicts wf (fun _ => hs.mem_keys_first)
    (fun _ => hs.mem_keys_follow wf) hs.conflicts hc
  have hwriter : ∀ p ∈ g.productions, t ∈ firstOfSequence s.first.sets.find p.rhs → t ≠ .epsilon →
      p.isEpsilon = false ∧ p ∈ s.table.writers p.lhs t := by
    intro p mem ht htε
    rw [hs.first] at ht
    obtain ⟨hp, hcolumn⟩ := h.mem_columns_of_mem_first wf mem ht htε (n := s.follow.sets.find)
    exact ⟨hp, (hs.mem_writers wf).2 ⟨mem, rfl, hs.first ▸ hcolumn⟩⟩
  rw [hs.one_lt_length_writers_iff wf]
  cases c with
  | firstFirst A p q S =>
    obtain ⟨hp, hq, rfl, hlhs, hne, hS⟩ := hreports
    obtain ⟨htp, htq, htε⟩ := hS t ht
    have hpw := (hwriter p hp htp htε).2
    have hqw := (hwriter q hq htq htε).2
    rw [hlhs] at hqw
    exact ⟨⟨p, hpw, q, hqw, hne⟩, by simp [Conflict.productions, Conflict.nonterminal, hpw, hqw]⟩
  | firstFollow A S =>
    obtain ⟨hA, hε, hS⟩ := hreports
    obtain ⟨hbegins, hbehind, htε⟩ := hS t ht
    rw [hs.first] at hε hbegins
    obtain ⟨q, hq, rfl, hqε⟩ := Grammar.exists_production_of_mem_first wf hε
    obtain ⟨p, hp, hlhs, hpt⟩ := Grammar.exists_production_of_mem_first wf hbegins
    obtain ⟨hpε, hpw⟩ := hwriter p hp (hs.first ▸ hpt) htε
    have hqε := h.isEpsilon_of_epsilon_mem wf hq hqε
    have hqw : q ∈ s.table.writers q.lhs t :=
      (hs.mem_writers wf).2 ⟨hq, rfl, (Grammar.WellFormed.mem_columns_epsilon hqε).2 hbehind⟩
    rw [hlhs] at hpw
    refine ⟨⟨p, hpw, q, hqw, ?_⟩, List.forall_mem_nil _⟩
    rintro rfl
    rw [hqε] at hpε
    cases hpε

end Study.IsOf

/-! ## The law of collisions -/

namespace Grammar

variable {pairs : List (Text × List Text)} {g : Grammar}

/-- Each collision of the table is explained by a conflict, so an LL(1)
grammar has none and its table can be filled strictly. Where no
right-hand side begins with a nonterminal that can vanish, the conflicts
are in turn collisions, of the productions they name, and the verdict is
that there are none. -/
theorem conflicts_match_collisions (h : load pairs = .ok g) :
    ∃ s, g.study = .ok s ∧
      (∀ place ws, (place, ws) ∈ s.table.collisions →
        ∃ c ∈ s.conflicts, c.nonterminal = place.row ∧ place.column ∈ c.terminals) ∧
      (s.isLL1 → s.table.collisions = [] ∧
        g.table s.first.sets s.follow.sets true = .ok s.table) ∧
      ((∀ p ∈ g.productions, ∀ X ∈ p.rhs.head?, X.isNonterminal → ¬ g.Derives [X] []) →
        (∀ c ∈ s.conflicts, ∀ t ∈ c.terminals,
          ∃ ws, (⟨c.nonterminal, t⟩, ws) ∈ s.table.collisions ∧ ∀ p ∈ c.productions, p ∈ ws) ∧
        (s.isLL1 ↔ s.table.collisions = [])) := by
  have wf := wellFormed_of_load h
  obtain ⟨s, hs, hof⟩ := exists_study wf
  refine ⟨s, hs, fun place ws hmem => ?_, fun hll1 => ?_, fun hheads => ?_⟩
  · obtain ⟨rfl, hlength⟩ := ParsingTable.mem_collisions.1 hmem
    exact hof.exists_conflict_of_collision wf hlength
  · have hnil := hof.collisions_eq_nil wf hll1
    exact ⟨hnil, table_strict_eq wf (fun _ => hof.mem_keys_first) (fun _ => hof.mem_keys_follow wf)
      hof.table hnil⟩
  · have hcollide : ∀ c ∈ s.conflicts, ∀ t ∈ c.terminals,
        ∃ ws, (⟨c.nonterminal, t⟩, ws) ∈ s.table.collisions ∧ ∀ p ∈ c.productions, p ∈ ws := by
      intro c hc t ht
      obtain ⟨hlength, hnamed⟩ := hof.collision_of_mem_conflicts wf hheads hc ht
      exact ⟨_, ParsingTable.mem_collisions.2 ⟨rfl, hlength⟩, hnamed⟩
    refine ⟨hcollide, hof.collisions_eq_nil wf, fun hnil => ?_⟩
    refine List.isEmpty_iff.2 (List.eq_nil_iff_forall_not_mem.2 fun c hc => ?_)
    obtain ⟨t, ht⟩ := exists_mem_terminals wf (fun _ => hof.mem_keys_first)
      (fun _ => hof.mem_keys_follow wf) hof.conflicts hc
    obtain ⟨ws, hmem, -⟩ := hcollide c hc t ht
    rw [hnil] at hmem
    cases hmem

/-- A cell that three alternatives claim, two for what they begin with
and one for what follows, and a grammar whose table is filled strictly. -/
theorem conflicts_match_collisions_of_common_prefix :
    (∃ g s, load [("S", ["bAa"]), ("A", ["ab", "ac", "ε"])] = .ok g ∧ g.study = .ok s ∧
      s.isLL1 = false ∧ ∃ ws, (⟨.single 'A', .single 'a'⟩, ws) ∈ s.table.collisions ∧
        ⟨.single 'A', symbolsOf "ab"⟩ ∈ ws ∧ ⟨.single 'A', symbolsOf "ac"⟩ ∈ ws) ∧
    ∃ g s, load [("E", ["TR"]), ("R", ["+TR", "ε"]), ("T", ["i", "(E)"])] = .ok g ∧
      g.study = .ok s ∧ s.isLL1 ∧ s.table.collisions = [] ∧
      g.table s.first.sets s.follow.sets true = .ok s.table := by
  constructor
  · obtain ⟨g, h⟩ : ∃ g, load [("S", ["bAa"]), ("A", ["ab", "ac", "ε"])] = .ok g := ⟨_, rfl⟩
    obtain ⟨s, hs, -, -, hlaw⟩ := conflicts_match_collisions h
    have hconflict : (s.isLL1, decide (Conflict.firstFirst (.single 'A')
        ⟨.single 'A', symbolsOf "ab"⟩ ⟨.single 'A', symbolsOf "ac"⟩ (.single (.single 'a')) ∈
          s.conflicts)) = (false, true) := by
      apply computed_eq h hs
      decide +kernel
    have hheads : decide (∀ p ∈ g.productions, ∀ X ∈ p.rhs.head?, X.isNonterminal →
        .epsilon ∉ firstOfSequence (g.first ∅).sets.find [X]) = true := by
      apply computed_eq h hs
      decide +kernel
    obtain ⟨hll1, hmem⟩ := Prod.mk.inj hconflict
    have wf := wellFormed_of_load h
    obtain ⟨hcollide, -⟩ := hlaw fun p mem X hX hn hd =>
      of_decide_eq_true hheads p mem X hX hn ((firstClosed_first wf ∅).epsilon_mem wf hd)
    obtain ⟨ws, hws, hnamed⟩ := hcollide _ (of_decide_eq_true hmem) (.single 'a')
      (SymbolSet.mem_single.2 rfl)
    exact ⟨g, s, h, hs, hll1, ws, hws, hnamed _ (by simp [Conflict.productions]),
      hnamed _ (by simp [Conflict.productions])⟩
  · obtain ⟨g, h⟩ : ∃ g, load [("E", ["TR"]), ("R", ["+TR", "ε"]), ("T", ["i", "(E)"])] = .ok g :=
      ⟨_, rfl⟩
    obtain ⟨s, hs, -, hstrict, -⟩ := conflicts_match_collisions h
    have hll1 : s.isLL1 = true := by
      apply computed_eq h hs
      decide +kernel
    exact ⟨g, s, h, hs, hll1, hstrict hll1⟩

end Grammar

end Predictive
