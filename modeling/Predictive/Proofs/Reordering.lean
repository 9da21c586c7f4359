import Predictive.Proofs.Inclusion
import Predictive.Proofs.Machine.Length

/-!
# The order of declarations

FIRST and FOLLOW are grown in place, rule by rule, and in a table the
later production wins; so what is there while a grammar is studied, and
how often the passes are repeated, depends on the order in which it was
declared. What comes out does not. Two orders of the same productions
give grammars that are within each other (`Grammar.Within`), so each has
the sets, the conflicts and the writers of the other; and without
conflicts a cell has one writer, so the tables hold the same and the
machine makes the same run (`study_reordered`).
-/

namespace Predictive

namespace Grammar.Within

variable {g h : Grammar} {A a : Symbol} {s s' : Study} (hgh : g.Within h) (hhg : h.Within g)
  (wg : g.WellFormed) (wh : h.WellFormed) (hs : s.IsOf g) (hs' : s'.IsOf h)
include hgh hhg wg wh hs hs'

/-! ## Sets -/

theorem get?_first_eq (A : Symbol) : s.first.sets.get? A = s'.first.sets.get? A := by
  refine SetMap.get?_congr (fun A => ?_) (fun A hA => SymbolSet.ext fun x => ?_) A
  · rw [hs.keys_first, hs'.keys_first]
    exact ⟨hgh.nonterminals A, hhg.nonterminals A⟩
  · rw [hs.keys_first] at hA
    exact ⟨hgh.first_subset wg wh hs hs' hA x,
      hhg.first_subset wh wg hs' hs (hgh.nonterminals A hA) x⟩

theorem get?_follow_eq (A : Symbol) : s.follow.sets.get? A = s'.follow.sets.get? A := by
  refine SetMap.get?_congr (fun A => ?_) (fun A hA => SymbolSet.ext fun x => ?_) A
  · rw [hs.keys_follow wg, hs'.keys_follow wh]
    exact ⟨hgh.nonterminals A, hhg.nonterminals A⟩
  · rw [hs.keys_follow wg] at hA
    exact ⟨hgh.follow_subset wg wh hs hs' hA x,
      hhg.follow_subset wh wg hs' hs (hgh.nonterminals A hA) x⟩

/-! ## Conflicts and cells -/

theorem isLL1_eq : s.isLL1 = s'.isLL1 :=
  Bool.eq_iff_iff.2 ⟨hhg.isLL1 wh wg hs' hs, hgh.isLL1 wg wh hs hs'⟩

theorem writers_perm : (s.table.writers A a).Perm (s'.table.writers A a) := by
  refine (List.perm_ext_iff_of_nodup (hs.nodup_writers wg) (hs'.nodup_writers wh)).2 fun p => ?_
  exact ⟨hgh.mem_writers wg wh hs hs', hhg.mem_writers wh wg hs' hs⟩

theorem mem_keys_iff {place : Place} : place ∈ s.table.keys ↔ place ∈ s'.table.keys := by
  rw [ParsingTable.mem_keys, ParsingTable.mem_keys]
  exact exists_congr fun p => (hgh.writers_perm hhg wg wh hs hs').mem_iff

theorem exists_collision {place : Place} {ws : List Production}
    (hmem : (place, ws) ∈ s.table.collisions) :
    ∃ ws', (place, ws') ∈ s'.table.collisions ∧ ws.Perm ws' := by
  obtain ⟨rfl, hlength⟩ := ParsingTable.mem_collisions.1 hmem
  have hperm := hgh.writers_perm hhg wg wh hs hs' (A := place.row) (a := place.column)
  exact ⟨_, ParsingTable.mem_collisions.2 ⟨rfl, hperm.length_eq ▸ hlength⟩, hperm⟩

/-! ## Runs -/

section Separated

variable (hll1 : s.isLL1)
include hll1

theorem get?_eq (A a : Symbol) : s.table.get? A a = s'.table.get? A a :=
  Option.ext fun _ => ⟨hgh.get? wg wh hs hs' (hgh.isLL1_eq hhg wg wh hs hs' ▸ hll1),
    hhg.get? wh wg hs' hs hll1⟩

theorem parse_eq (text : Text) : s.parse text = s'.parse text := by
  have hending := hs.ending_parse_ne_unfinished wg hll1 text
  have hcells := hgh.get?_eq hhg wg wh hs hs' hll1
  rw [Study.parse, hs.grammar, hgh.start, ParsingTable.parse, Config.run_congr hcells]
    at hending ⊢
  -- the allowances of the two tables may differ, but the run ends within both
  rw [ParsingTable.run_eq_parse hending, Study.parse, hs'.grammar]

end Separated

end Grammar.Within

/-! ## The law of the order of declarations -/

namespace Grammar

variable {pairs pairs' : List (Text × List Text)} {g h : Grammar}

/-- Grammars with the same start symbol, nonterminals and productions, in
whatever order they were declared, have the same sets, the same verdict,
conflicts at the same symbols, and tables with the same cells, contested
by the same productions. If they are LL(1) the cells hold the same, and
the machine makes the same run over every text. -/
theorem study_reordered (hg : load pairs = .ok g) (hh : load pairs' = .ok h)
    (hstart : g.start = h.start) (hnonterminals : ∀ A, A ∈ g.nonterminals ↔ A ∈ h.nonterminals)
    (hproductions : ∀ p, p ∈ g.productions ↔ p ∈ h.productions) :
    ∃ s s', g.study = .ok s ∧ h.study = .ok s' ∧
      (∀ A, s.first.sets.get? A = s'.first.sets.get? A) ∧
      (∀ A, s.follow.sets.get? A = s'.follow.sets.get? A) ∧ s.isLL1 = s'.isLL1 ∧
      (∀ kind A t, (∃ c ∈ s.conflicts, c.kind = kind ∧ c.nonterminal = A ∧ t ∈ c.terminals) ↔
        ∃ c ∈ s'.conflicts, c.kind = kind ∧ c.nonterminal = A ∧ t ∈ c.terminals) ∧
      (∀ place, place ∈ s.table.keys ↔ place ∈ s'.table.keys) ∧
      (∀ place ws, (place, ws) ∈ s.table.collisions →
        ∃ ws', (place, ws') ∈ s'.table.collisions ∧ ws.Perm ws') ∧
      (∀ place ws', (place, ws') ∈ s'.table.collisions →
        ∃ ws, (place, ws) ∈ s.table.collisions ∧ ws'.Perm ws) ∧
      (s.isLL1 → (∀ A a, s.table.get? A a = s'.table.get? A a) ∧
        ∀ text, s.parse text = s'.parse text) := by
  have wg := wellFormed_of_load hg
  have wh := wellFormed_of_load hh
  obtain ⟨s, hstudy, hs⟩ := exists_study wg
  obtain ⟨s', hstudy', hs'⟩ := exists_study wh
  have hgh : g.Within h :=
    ⟨hstart, fun A => (hnonterminals A).1, fun p => (hproductions p).1⟩
  have hhg : h.Within g :=
    ⟨hstart.symm, fun A => (hnonterminals A).2, fun p => (hproductions p).2⟩
  refine ⟨s, s', hstudy, hstudy', hgh.get?_first_eq hhg wg wh hs hs',
    hgh.get?_follow_eq hhg wg wh hs hs', hgh.isLL1_eq hhg wg wh hs hs', ?_,
    fun _ => hgh.mem_keys_iff hhg wg wh hs hs', fun _ _ => hgh.exists_collision hhg wg wh hs hs',
    fun _ _ => hhg.exists_collision hgh wh wg hs' hs, fun hll1 =>
      ⟨hgh.get?_eq hhg wg wh hs hs' hll1, hgh.parse_eq hhg wg wh hs hs' hll1⟩⟩
  rintro _ _ t
  constructor
  · rintro ⟨c, hc, rfl, rfl, ht⟩
    obtain ⟨c', hc', hkind, hnonterminal, -, ht'⟩ := hgh.exists_conflict wg wh hs hs' hc ht
    exact ⟨c', hc', hkind, hnonterminal, ht'⟩
  · rintro ⟨c, hc, rfl, rfl, ht⟩
    obtain ⟨c', hc', hkind, hnonterminal, -, ht'⟩ := hhg.exists_conflict wh wg hs' hs hc ht
    exact ⟨c', hc', hkind, hnonterminal, ht'⟩

theorem computed_both {α : Type} {x : α} {f : Grammar → Grammar → α} (hg : load pairs = .ok g)
    (hh : load pairs' = .ok h)
    (hx : ((load pairs).toOption.bind fun g => (load pairs').toOption.map (f g)) = some x) :
    f g h = x := by
  rw [hg, hh] at hx
  exact Option.some.inj hx

/-- Two orders of a grammar with a contested cell, in which another
production wins, and two of one that is LL(1). -/
theorem study_reordered_of_last_writer :
    (∃ g h s s', load [("S", ["bAa"]), ("A", ["ab", "ac", "ε"])] = .ok g ∧
      load [("S", ["bAa"]), ("A", ["ε", "ac"]), ("A", ["ab"])] = .ok h ∧
      g.study = .ok s ∧ h.study = .ok s' ∧ s.isLL1 = s'.isLL1 ∧
      s.table.get? (.single 'A') (.single 'a') = some ⟨.single 'A', [.epsilon]⟩ ∧
      s'.table.get? (.single 'A') (.single 'a') = some ⟨.single 'A', symbolsOf "ab"⟩ ∧
      ∀ place ws, (place, ws) ∈ s.table.collisions →
        ∃ ws', (place, ws') ∈ s'.table.collisions ∧ ws.Perm ws') ∧
    ∃ g h s s', load [("E", ["TR"]), ("R", ["+TR", "ε"]), ("T", ["i", "(E)"])] = .ok g ∧
      load [("E", ["TR"]), ("T", ["(E)"]), ("R", ["ε"]), ("T", ["i"]), ("R", ["+TR"])] = .ok h ∧
      g.study = .ok s ∧ h.study = .ok s' ∧ s.isLL1 ∧ ∀ text, s.parse text = s'.parse text := by
  constructor
  · obtain ⟨g, hg⟩ : ∃ g, load [("S", ["bAa"]), ("A", ["ab", "ac", "ε"])] = .ok g := ⟨_, rfl⟩
    obtain ⟨h, hh⟩ : ∃ h, load [("S", ["bAa"]), ("A", ["ε", "ac"]), ("A", ["ab"])] = .ok h :=
      ⟨_, rfl⟩
    have hsame : decide (g.start = h.start ∧ g.nonterminals.Perm h.nonterminals ∧
        g.productions.Perm h.productions) = true := by
      apply computed_both hg hh
      decide +kernel
    obtain ⟨hstart, hnonterminals, hproductions⟩ := of_decide_eq_true hsame
    obtain ⟨s, s', hs, hs', -, -, hll1, -, -, hcollide, -, -⟩ := study_reordered hg hh hstart
      (fun _ => hnonterminals.mem_iff) fun _ => hproductions.mem_iff
    have hcell : s.table.get? (.single 'A') (.single 'a') = some ⟨.single 'A', [.epsilon]⟩ := by
      apply computed_eq hg hs
      decide +kernel
    have hcell' : s'.table.get? (.single 'A') (.single 'a') =
        some ⟨.single 'A', symbolsOf "ab"⟩ := by
      apply computed_eq hh hs'
      decide +kernel
    exact ⟨g, h, s, s', hg, hh, hs, hs', hll1, hcell, hcell', hcollide⟩
  · obtain ⟨g, hg⟩ : ∃ g,
        load [("E", ["TR"]), ("R", ["+TR", "ε"]), ("T", ["i", "(E)"])] = .ok g := ⟨_, rfl⟩
    obtain ⟨h, hh⟩ : ∃ h, load [("E", ["TR"]), ("T", ["(E)"]), ("R", ["ε"]), ("T", ["i"]),
        ("R", ["+TR"])] = .ok h := ⟨_, rfl⟩
    have hsame : decide (g.start = h.start ∧ g.nonterminals.Perm h.nonterminals ∧
        g.productions.Perm h.productions) = true := by
      apply computed_both hg hh
      decide +kernel
    obtain ⟨hstart, hnonterminals, hproductions⟩ := of_decide_eq_true hsame
    obtain ⟨s, s', hs, hs', -, -, -, -, -, -, -, hruns⟩ := study_reordered hg hh hstart
      (fun _ => hnonterminals.mem_iff) fun _ => hproductions.mem_iff
    have hll1 : s.isLL1 = true := by
      apply computed_eq hg hs
      decide +kernel
    exact ⟨g, h, s, s', hg, hh, hs, hs', hll1, (hruns hll1).2⟩

end Grammar

end Predictive
