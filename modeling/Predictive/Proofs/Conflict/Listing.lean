import Predictive.Conflict.Record
import Predictive.Proofs.Study

/-!
# The list of conflicts is exact

The search intersects computed sets, and what it lists is what can be
derived: a terminal is reported for two alternatives exactly when both
derive something that begins with it (`mem_firstFirst_iff`), and for a
nonterminal with what follows it exactly when the nonterminal can
vanish, can begin with the terminal, and stands before it in a form that
some nonterminal derives (`mem_firstFollow_iff`). Neither mentions FIRST
or FOLLOW.

No two conflicts of the list are about the same (`Conflict.Alike`): the
pairs that are tried are distinct in either order, since the
alternatives of a rule are, and each rule has a left-hand side of its
own.
-/

namespace Predictive

namespace Conflict

variable {f n : Symbol → SymbolSet} {A : Symbol}

/-! ## What conflicts are about -/

/-- Two conflicts are about the same two alternatives, in whatever order,
or about the same nonterminal and what follows it. -/
def Alike : Conflict → Conflict → Prop
  | .firstFirst A p q _, .firstFirst A' p' q' _ =>
    A = A' ∧ ((p = p' ∧ q = q') ∨ (p = q' ∧ q = p'))
  | .firstFollow A _, .firstFollow A' _ => A = A'
  | .firstFirst .., .firstFollow .. => False
  | .firstFollow .., .firstFirst .. => False

theorem Alike.nonterminal_eq {c d : Conflict} (h : c.Alike d) : c.nonterminal = d.nonterminal := by
  cases c <;> cases d
  · exact h.1
  · exact h.elim
  · exact h.elim
  · exact h

theorem Alike.kind_eq {c d : Conflict} (h : c.Alike d) : c.kind = d.kind := by
  cases c <;> cases d
  · rfl
  · exact h.elim
  · exact h.elim
  · rfl

theorem Alike.mem_productions_iff {c d : Conflict} (h : c.Alike d) {p : Production} :
    p ∈ c.productions ↔ p ∈ d.productions := by
  cases c <;> cases d
  · obtain ⟨-, ⟨rfl, rfl⟩ | ⟨rfl, rfl⟩⟩ := h
    · rfl
    · simp [productions, or_comm]
  · exact h.elim
  · exact h.elim
  · rfl

/-- No pair of members of a list without repetitions comes twice, in
whatever order. -/
theorem pairwise_pairs {α : Type} {l : List α} (hl : l.Nodup) :
    (pairs l).Pairwise fun b d => ¬ (b = d ∨ b = d.swap) := by
  induction l with
  | nil => exact List.Pairwise.nil
  | cons a l ih =>
    obtain ⟨ha, hl⟩ := List.nodup_cons.1 hl
    refine List.pairwise_append.2 ⟨List.pairwise_map.2 (hl.imp_of_mem ?_), ih hl, ?_⟩
    · intro x y _ hy hne
      rintro (heq | heq)
      · exact hne (Prod.mk.inj heq).2
      · exact ha ((Prod.mk.inj heq).1 ▸ hy)
    · rintro b hb d hd (rfl | rfl)
      · obtain ⟨x, -, rfl⟩ := List.mem_map.1 hb
        exact ha (mem_pairs hd).1
      · obtain ⟨x, -, heq⟩ := List.mem_map.1 hb
        exact ha ((Prod.mk.inj heq).1 ▸ (mem_pairs hd).2)

theorem pairwise_ofCommon {make : SymbolSet → Conflict} {S : SymbolSet}
    {R : Conflict → Conflict → Prop} : (ofCommon make S).Pairwise R := by
  rw [ofCommon]
  cases (S.erase .epsilon).isEmpty <;> simp

theorem not_alike_of_ofBodies {b d : List Symbol × List Symbol} (hbd : ¬ (b = d ∨ b = d.swap))
    {c e : Conflict} (hc : c ∈ ofBodies f A b) (he : e ∈ ofBodies f A d) : ¬ c.Alike e := by
  obtain ⟨-, rfl⟩ := mem_ofCommon.1 hc
  obtain ⟨-, rfl⟩ := mem_ofCommon.1 he
  rintro ⟨-, ⟨hp, hq⟩ | ⟨hp, hq⟩⟩
  · exact hbd (Or.inl (Prod.ext (congrArg Production.rhs hp) (congrArg Production.rhs hq)))
  · exact hbd (Or.inr (Prod.ext (congrArg Production.rhs hp) (congrArg Production.rhs hq)))

theorem pairwise_ofRule {bodies : List (List Symbol)} (h : bodies.Nodup) :
    ((pairs bodies).flatMap (ofBodies f A) ++ ofVanishing f n A).Pairwise
      fun c d => ¬ c.Alike d := by
  refine List.pairwise_append.2 ⟨List.pairwise_flatMap.2 ⟨fun b _ => pairwise_ofCommon, ?_⟩, ?_, ?_⟩
  · exact (pairwise_pairs h).imp fun hbd c hc e he => not_alike_of_ofBodies hbd hc he
  · unfold ofVanishing
    split
    · exact pairwise_ofCommon
    · exact List.Pairwise.nil
  · intro c hc d hd
    obtain ⟨b, -, hc⟩ := List.mem_flatMap.1 hc
    obtain ⟨-, rfl⟩ := mem_ofCommon.1 hc
    obtain ⟨-, -, rfl⟩ := mem_ofVanishing.1 hd
    exact id

theorem nonterminal_of_mem_ofRule {bodies : List (List Symbol)} {c : Conflict}
    (h : c ∈ (pairs bodies).flatMap (ofBodies f A) ++ ofVanishing f n A) : c.nonterminal = A := by
  rcases List.mem_append.1 h with h | h
  · obtain ⟨b, -, hc⟩ := List.mem_flatMap.1 h
    obtain ⟨-, rfl⟩ := mem_ofCommon.1 hc
    rfl
  · obtain ⟨-, -, rfl⟩ := mem_ofVanishing.1 h
    rfl

/-! ## Records -/

/-- Sorting the terminals of a conflict, in whatever order they come,
gives the terminals of its record. -/
theorem record_eq_ofParts (c : Conflict) {l : List Symbol} (hl : l.Nodup)
    (hmem : ∀ t, t ∈ l ↔ t ∈ c.terminals) :
    c.record = .ofParts c.kind c.nonterminal c.productions l := by
  have htrans : ∀ a b c : Symbol, (!decide (b < a)) = true → (!decide (c < b)) = true →
      (!decide (c < a)) = true := by
    intro a b c hab hbc
    simp only [Bool.not_eq_true', decide_eq_false_iff_not] at hab hbc ⊢
    intro hca
    rcases Symbol.lt_trichotomy a b with h | rfl | h
    · exact hbc (Symbol.lt_trans hca h)
    · exact hbc hca
    · exact hab h
  have htotal : ∀ a b : Symbol, (!decide (b < a) || !decide (a < b)) = true := by
    intro a b
    by_cases hba : b < a
    · have hab : ¬ a < b := fun hab => Symbol.lt_irrefl a (Symbol.lt_trans hab hba)
      simp [hab]
    · simp [hba]
  have hperm := List.mergeSort_perm l fun a b => !decide (b < a)
  have hle := List.pairwise_mergeSort htrans htotal l
  have hlt : (l.mergeSort fun a b => !decide (b < a)).Pairwise (· < ·) := by
    refine (hle.and (hperm.nodup_iff.2 hl)).imp fun ⟨hba, hne⟩ => ?_
    rcases Symbol.lt_trichotomy _ _ with h | h | h
    · exact h
    · exact absurd h hne
    · simp [h] at hba
  have hterminals := SymbolSet.sorted_ext c.terminals.sorted hlt fun t =>
    (hmem t).symm.trans hperm.mem_iff.symm
  rw [record, ConflictRecord.ofParts, hterminals]

end Conflict

namespace Grammar

variable {g : Grammar} {first follow : SetMap} {cs : List Conflict} {l : List Symbol}
  {A t : Symbol}

theorem pairwise_conflicts (wf : g.WellFormed) (hfirst : ∀ A ∈ g.nonterminals, A ∈ first.keys)
    (hfollow : ∀ A ∈ g.nonterminals, A ∈ follow.keys) (h : g.conflicts first follow = .ok cs) :
    cs.Pairwise fun c d => ¬ c.Alike d := by
  obtain rfl := Except.ok.inj ((conflicts_eq wf hfirst hfollow).symm.trans h)
  refine List.pairwise_flatMap.2 ⟨fun r hr => Conflict.pairwise_ofRule (wf.distinct _ _ hr), ?_⟩
  have hheads : g.rules.entries.Pairwise fun r r' => r.1 ≠ r'.1 :=
    List.pairwise_map.1 g.rules.nodup
  refine hheads.imp fun hne c hc d hd halike => hne ?_
  rw [← Conflict.nonterminal_of_mem_ofRule hc, ← Conflict.nonterminal_of_mem_ofRule hd]
  exact halike.nonterminal_eq

theorem firstOf_iff_begins (wf : g.WellFormed) (hl : ∀ s ∈ l, g.IsKnown s) (ht : t.isTerminal) :
    g.FirstOf l t ↔ g.Begins l t := by
  obtain ⟨hn, hε⟩ := Symbol.isTerminal_iff.1 ht
  refine ⟨fun h => (h.begins hε).2, fun h => Or.inl ⟨?_, h⟩⟩
  obtain ⟨rest, hd⟩ := h
  refine (hd.isKnown wf hl t (List.mem_cons_self ..)).resolve_left fun hA => ?_
  rw [wf.head_nonterminal t hA] at hn
  cases hn

end Grammar

namespace Study.IsOf

variable {g : Grammar} {s : Study} {A t : Symbol} {p q : Production} {c : Conflict}

/-! ## What is reported can be derived, and the converse -/

section Exact

variable (hs : s.IsOf g) (wf : g.WellFormed)
include hs wf

theorem mem_firstOfSequence_iff_begins (mem : p ∈ g.productions) (ht : t.isTerminal) :
    t ∈ firstOfSequence s.first.sets.find p.rhs ↔ g.Begins p.expansion t := by
  rw [hs.first, Grammar.mem_firstOfSequence_rhs_iff wf mem]
  refine Grammar.firstOf_iff_begins wf (fun x hx => ?_) ht
  obtain ⟨hrhs, hε⟩ := (wf.mem_expansion mem).1 hx
  exact wf.isKnown_of_mem_rhs mem hrhs hε

theorem reports_of_mem (hc : c ∈ s.conflicts) :
    g.Reports s.first.sets.find s.follow.sets.find c :=
  Grammar.reports_of_mem_conflicts wf (fun _ => hs.mem_keys_first) (fun _ => hs.mem_keys_follow wf)
    hs.conflicts hc

theorem mem_firstFirst_iff (ht : t.isTerminal) :
    (∃ S, t ∈ S ∧ (.firstFirst A p q S ∈ s.conflicts ∨ .firstFirst A q p S ∈ s.conflicts)) ↔
      p ∈ g.productions ∧ q ∈ g.productions ∧ p.lhs = A ∧ q.lhs = A ∧ p ≠ q ∧
        g.Begins p.expansion t ∧ g.Begins q.expansion t := by
  have hbegins := fun p mem => hs.mem_firstOfSequence_iff_begins wf (p := p) mem ht
  constructor
  · rintro ⟨S, htS, hc | hc⟩
    · obtain ⟨hp, hq, hpA, hqA, hne, hS⟩ := hs.reports_of_mem wf hc
      obtain ⟨htp, htq, -⟩ := hS t htS
      exact ⟨hp, hq, hpA, hqA, hne, (hbegins p hp).1 htp, (hbegins q hq).1 htq⟩
    · obtain ⟨hq, hp, hqA, hpA, hne, hS⟩ := hs.reports_of_mem wf hc
      obtain ⟨htq, htp, -⟩ := hS t htS
      exact ⟨hp, hq, hpA, hqA, hne.symm, (hbegins p hp).1 htp, (hbegins q hq).1 htq⟩
  · rintro ⟨hp, hq, rfl, hqA, hne, htp, htq⟩
    exact Grammar.exists_firstFirst wf (fun _ => hs.mem_keys_first)
      (fun _ => hs.mem_keys_follow wf) hs.conflicts hp hq hqA.symm hne ((hbegins p hp).2 htp)
      ((hbegins q hq).2 htq) (Symbol.isTerminal_iff.1 ht).2

theorem mem_first_iff (hA : A ∈ g.nonterminals) {x : Symbol} :
    x ∈ s.first.sets.find A ↔ g.FirstOf [A] x := by
  rw [hs.first]
  exact Grammar.mem_first_iff wf hA

theorem mem_follow_iff (hA : A ∈ g.nonterminals) {x : Symbol} :
    x ∈ s.follow.sets.find A ↔ g.FollowOf A x :=
  Grammar.mem_follow_iff wf (hs.first ▸ hs.follow) hA

theorem mem_terminals_of_reported (hc : c ∈ s.conflicts) (ht : t ∈ c.terminals) :
    t ∈ g.terminals := by
  have hreports := hs.reports_of_mem wf hc
  cases c with
  | firstFirst A p q S =>
    obtain ⟨hp, -, -, -, -, hS⟩ := hreports
    obtain ⟨htp, -, hε⟩ := hS t ht
    rw [hs.first, Grammar.mem_firstOfSequence_rhs_iff wf hp] at htp
    exact (htp.begins hε).1
  | firstFollow A S =>
    obtain ⟨hA, -, hS⟩ := hreports
    obtain ⟨htA, -, hε⟩ := hS t ht
    exact (((hs.mem_first_iff wf hA).1 htA).begins hε).1

theorem mem_firstFollow_iff (ht : t.isTerminal) :
    (∃ S, t ∈ S ∧ .firstFollow A S ∈ s.conflicts) ↔
      A ∈ g.nonterminals ∧ g.Vanishes [A] ∧ g.Begins [A] t ∧
        ∃ B ∈ g.nonterminals, ∃ u v, g.Derives [B] (u ++ A :: t :: v) := by
  have hε := (Symbol.isTerminal_iff.1 ht).2
  constructor
  · rintro ⟨S, htS, hc⟩
    have hterminal := hs.mem_terminals_of_reported wf hc htS
    obtain ⟨hA, hvanish, hS⟩ := hs.reports_of_mem wf hc
    obtain ⟨htA, htn, -⟩ := hS t htS
    refine ⟨hA, ((hs.mem_first_iff wf hA).1 hvanish).vanishes wf,
      (((hs.mem_first_iff wf hA).1 htA).begins hε).2, ?_⟩
    rcases (hs.mem_follow_iff wf hA).1 htn with ⟨-, h⟩ | ⟨rfl, -⟩
    · exact h
    · exact absurd (Or.inr hterminal) wf.endMarker_not_isKnown
  · rintro ⟨hA, hvanish, hbegins, hfollow⟩
    have hknown : ∀ s ∈ [A], g.IsKnown s := fun s hs => Or.inl (List.mem_singleton.1 hs ▸ hA)
    have hfirst := (Grammar.firstOf_iff_begins wf hknown ht).2 hbegins
    exact Grammar.exists_firstFollow wf (fun _ => hs.mem_keys_first)
      (fun _ => hs.mem_keys_follow wf) hs.conflicts hA
      ((hs.mem_first_iff wf hA).2 (Or.inr ⟨rfl, hvanish⟩)) ((hs.mem_first_iff wf hA).2 hfirst)
      ((hs.mem_follow_iff wf hA).2 (Or.inl ⟨(hfirst.begins hε).1, hfollow⟩)) hε

end Exact

end Study.IsOf

/-! ## The law of conflicts -/

namespace Grammar

/-- The conflicts of a grammar are those that it has, each listed once,
with its terminals in increasing order. -/
theorem conflicts_exact {pairs : List (Text × List Text)} {g : Grammar} (h : load pairs = .ok g) :
    ∃ s, g.study = .ok s ∧
      (∀ A p q t, t.isTerminal →
        ((∃ S, t ∈ S ∧ (.firstFirst A p q S ∈ s.conflicts ∨ .firstFirst A q p S ∈ s.conflicts)) ↔
          p ∈ g.productions ∧ q ∈ g.productions ∧ p.lhs = A ∧ q.lhs = A ∧ p ≠ q ∧
            (∃ rest, g.Derives p.expansion (t :: rest)) ∧
            ∃ rest, g.Derives q.expansion (t :: rest))) ∧
      (∀ A t, t.isTerminal →
        ((∃ S, t ∈ S ∧ .firstFollow A S ∈ s.conflicts) ↔
          A ∈ g.nonterminals ∧ g.Derives [A] [] ∧ (∃ rest, g.Derives [A] (t :: rest)) ∧
            ∃ B ∈ g.nonterminals, ∃ u v, g.Derives [B] (u ++ A :: t :: v))) ∧
      s.conflicts.Pairwise (fun c d => ¬ c.Alike d) ∧
      ∀ c ∈ s.conflicts, c.record.terminals ≠ [] ∧ .endMarker ∉ c.record.terminals ∧
        .epsilon ∉ c.record.terminals ∧ c.record.terminals.Pairwise (· < ·) ∧
        ∀ l : List Symbol, l.Nodup → (∀ t, t ∈ l ↔ t ∈ c.terminals) →
          ConflictRecord.ofParts c.kind c.nonterminal c.productions l = c.record := by
  have wf := wellFormed_of_load h
  obtain ⟨s, hs, hof⟩ := exists_study wf
  refine ⟨s, hs, fun A p q t ht => hof.mem_firstFirst_iff wf ht,
    fun A t ht => hof.mem_firstFollow_iff wf ht, ?_, fun c hc => ?_⟩
  · exact pairwise_conflicts wf (fun _ => hof.mem_keys_first) (fun _ => hof.mem_keys_follow wf)
      hof.conflicts
  · have hterminals : ∀ t ∈ c.record.terminals, t ∈ g.terminals :=
      fun t ht => hof.mem_terminals_of_reported wf hc ht
    obtain ⟨t, ht⟩ := exists_mem_terminals wf (fun _ => hof.mem_keys_first)
      (fun _ => hof.mem_keys_follow wf) hof.conflicts hc
    refine ⟨List.ne_nil_of_mem ht, fun hend => ?_, fun hε => ?_, c.terminals.sorted,
      fun l hl hmem => (c.record_eq_ofParts hl hmem).symm⟩
    · exact wf.endMarker_not_isKnown (Or.inr (hterminals _ hend))
    · exact wf.epsilon_not_isKnown (Or.inr (hterminals _ hε))

/-- Two alternatives that begin alike only behind a nonterminal that can
vanish, and that nonterminal before what it begins with. -/
theorem conflicts_exact_of_vanishing_prefix :
    ∃ g s, load [("S", ["XA", "Xb"]), ("X", ["a", "ε"]), ("A", ["aA", "ε"])] = .ok g ∧
      g.study = .ok s ∧
      s.conflicts.map (fun c => (c.nonterminal, c.record.terminals)) =
        [(.single 'S', [.single 'a']), (.single 'X', [.single 'a'])] ∧
      (∃ rest, g.Derives [.single 'X', .single 'b'] (.single 'a' :: rest)) ∧
      ∃ B ∈ g.nonterminals, ∃ u v, g.Derives [B] (u ++ .single 'X' :: .single 'a' :: v) := by
  obtain ⟨g, h⟩ : ∃ g, load [("S", ["XA", "Xb"]), ("X", ["a", "ε"]), ("A", ["aA", "ε"])] = .ok g :=
    ⟨_, rfl⟩
  obtain ⟨s, hs, hpairs, hfollow, -⟩ := conflicts_exact h
  have hlist : s.conflicts =
      [.firstFirst (.single 'S') ⟨.single 'S', [.single 'X', .single 'A']⟩
          ⟨.single 'S', [.single 'X', .single 'b']⟩ (.ofList [.single 'a']),
        .firstFollow (.single 'X') (.ofList [.single 'a'])] := by
    apply computed_eq (f := fun _ s => s.conflicts) h hs
    decide +kernel
  refine ⟨g, s, h, hs, ?_, ?_, ?_⟩
  · rw [hlist]
    decide
  · obtain ⟨-, -, -, -, -, -, hbegins⟩ := (hpairs _ _ _ (.single 'a') (by decide)).1
      ⟨_, by decide, Or.inl (hlist ▸ List.mem_cons_self ..)⟩
    exact hbegins
  · obtain ⟨-, -, -, hbefore⟩ := (hfollow (.single 'X') (.single 'a') (by decide)).1
      ⟨_, by decide, hlist ▸ List.mem_cons_of_mem _ (List.mem_singleton.2 rfl)⟩
    exact hbefore

end Grammar

end Predictive
