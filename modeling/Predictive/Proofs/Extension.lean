import Predictive.Proofs.Conflict.Listing
import Predictive.Proofs.Reordering

/-!
# More productions

What a grammar gains when productions are added to it: symbols in FIRST
and FOLLOW, and conflicts. Nothing is lost, although the passes over the
larger grammar are others, in another order and as many as it needs
(`study_extended`).

A conflict of the smaller grammar is found again in the larger one, over
the same two alternatives or the same nonterminal, and with all its
terminals (`Within.exists_alike`). Each single terminal is reported in
some conflict there, because the computed sets grow; it is one conflict
for all of them because no two conflicts of a grammar are about the same
(`eq_of_alike`).
-/

namespace Predictive

namespace Conflict.Alike

variable {c d e : Conflict}

instance : Std.Symm Alike where
  symm c d h := by
    cases c <;> cases d
    · obtain ⟨rfl, ⟨rfl, rfl⟩ | ⟨rfl, rfl⟩⟩ := h
      · exact ⟨rfl, Or.inl ⟨rfl, rfl⟩⟩
      · exact ⟨rfl, Or.inr ⟨rfl, rfl⟩⟩
    · exact h.elim
    · exact h.elim
    · exact Eq.symm h

instance : Std.Symm fun c d : Conflict => ¬ c.Alike d where
  symm _ _ hne h := hne (Std.Symm.symm _ _ h)

theorem trans (h : c.Alike d) (h' : d.Alike e) : c.Alike e := by
  cases c <;> cases d
  · cases e
    · obtain ⟨rfl, ⟨rfl, rfl⟩ | ⟨rfl, rfl⟩⟩ := h
      · exact h'
      · exact ⟨h'.1, h'.2.symm.imp And.symm And.symm⟩
    · exact h'.elim
  · exact h.elim
  · exact h.elim
  · cases e
    · exact h'.elim
    · exact Eq.trans h h'

end Conflict.Alike

/-- Of the conflicts of a grammar only one is about given alternatives, or
about a given nonterminal. -/
theorem Study.IsOf.eq_of_alike {g : Grammar} {s : Study} (hs : s.IsOf g) (wf : g.WellFormed)
    {c d : Conflict} (hc : c ∈ s.conflicts) (hd : d ∈ s.conflicts) (h : c.Alike d) : c = d := by
  have hpairwise := Grammar.pairwise_conflicts wf (fun _ => hs.mem_keys_first)
    (fun _ => hs.mem_keys_follow wf) hs.conflicts
  by_contra hne
  exact hpairwise.forall hc hd hne h

namespace Grammar

namespace Within

variable {g h : Grammar} {s s' : Study}

/-- A conflict is found again in a larger grammar, with all its
terminals. -/
theorem exists_alike (hgh : g.Within h) (wg : g.WellFormed) (wh : h.WellFormed) (hs : s.IsOf g)
    (hs' : s'.IsOf h) {c : Conflict} (hc : c ∈ s.conflicts) :
    ∃ c' ∈ s'.conflicts, c.Alike c' ∧ c.terminals ⊆ c'.terminals := by
  obtain ⟨t, ht⟩ := exists_mem_terminals wg (fun _ => hs.mem_keys_first)
    (fun _ => hs.mem_keys_follow wg) hs.conflicts hc
  obtain ⟨c', hc', halike, -⟩ := hgh.exists_alike_of_mem wg wh hs hs' hc ht
  refine ⟨c', hc', halike, fun u hu => ?_⟩
  obtain ⟨d, hd, halike', hud⟩ := hgh.exists_alike_of_mem wg wh hs hs' hc hu
  rwa [hs'.eq_of_alike wh hc' hd (.trans (Std.Symm.symm _ _ halike) halike')]

end Within

/-! ## The law of added productions -/

variable {pairs pairs' : List (Text × List Text)} {g h : Grammar}

/-- Where all nonterminals and productions of a grammar are also in
another with the same start symbol, so is all that FIRST, FOLLOW and the
conflicts of the first hold; hence it is LL(1) if the other is. -/
theorem study_extended (hg : load pairs = .ok g) (hh : load pairs' = .ok h)
    (hstart : g.start = h.start) (hnonterminals : ∀ A ∈ g.nonterminals, A ∈ h.nonterminals)
    (hproductions : ∀ p ∈ g.productions, p ∈ h.productions) :
    ∃ s s', g.study = .ok s ∧ h.study = .ok s' ∧
      (∀ A ∈ g.nonterminals, ∃ S S', s.first.sets.get? A = some S ∧
        s'.first.sets.get? A = some S' ∧ S ⊆ S') ∧
      (∀ A ∈ g.nonterminals, ∃ S S', s.follow.sets.get? A = some S ∧
        s'.follow.sets.get? A = some S' ∧ S ⊆ S') ∧
      (∀ c ∈ s.conflicts, ∃ c' ∈ s'.conflicts, c.Alike c' ∧ c.terminals ⊆ c'.terminals) ∧
      (s'.isLL1 → s.isLL1) := by
  have wg := wellFormed_of_load hg
  have wh := wellFormed_of_load hh
  have hgh : g.Within h := ⟨hstart, hnonterminals, hproductions⟩
  obtain ⟨s, hstudy, hs⟩ := exists_study wg
  obtain ⟨s', hstudy', hs'⟩ := exists_study wh
  refine ⟨s, s', hstudy, hstudy', fun A hA => ?_, fun A hA => ?_,
    fun c => hgh.exists_alike wg wh hs hs', hgh.isLL1 wg wh hs hs'⟩
  · exact ⟨_, _, SetMap.get?_of_mem (hs.mem_keys_first hA),
      SetMap.get?_of_mem (hs'.mem_keys_first (hnonterminals A hA)),
      hgh.first_subset wg wh hs hs' hA⟩
  · exact ⟨_, _, SetMap.get?_of_mem (hs.mem_keys_follow wg hA),
      SetMap.get?_of_mem (hs'.mem_keys_follow wh (hnonterminals A hA)),
      hgh.follow_subset wg wh hs hs' hA⟩

/-- A nonterminal that can vanish only with the productions added, which
are declared in another order, and an LL(1) grammar without some of its
alternatives. -/
theorem study_extended_of_new_vanishing :
    (∃ g h s s', load [("S", ["XA", "Xb"]), ("X", ["c"]), ("A", ["aA", "ε"])] = .ok g ∧
      load [("S", ["Xb", "XA"]), ("A", ["ε", "aA"]), ("X", ["ε", "a", "c"])] = .ok h ∧
      g.study = .ok s ∧ h.study = .ok s' ∧
      .firstFirst (.single 'S') ⟨.single 'S', symbolsOf "XA"⟩ ⟨.single 'S', symbolsOf "Xb"⟩
        (.single (.single 'c')) ∈ s.conflicts ∧
      ∃ c ∈ s'.conflicts, c.nonterminal = .single 'S' ∧ .single 'c' ∈ c.terminals) ∧
    ∃ g h s s', load [("E", ["TR"]), ("R", ["ε"]), ("T", ["i"])] = .ok g ∧
      load [("E", ["TR"]), ("T", ["(E)", "i"]), ("R", ["+TR", "ε"])] = .ok h ∧
      g.study = .ok s ∧ h.study = .ok s' ∧ s'.isLL1 ∧ s.isLL1 := by
  constructor
  · obtain ⟨g, hg⟩ : ∃ g, load [("S", ["XA", "Xb"]), ("X", ["c"]), ("A", ["aA", "ε"])] = .ok g :=
      ⟨_, rfl⟩
    obtain ⟨h, hh⟩ : ∃ h,
        load [("S", ["Xb", "XA"]), ("A", ["ε", "aA"]), ("X", ["ε", "a", "c"])] = .ok h := ⟨_, rfl⟩
    have hwithin : decide (g.start = h.start ∧ (∀ A ∈ g.nonterminals, A ∈ h.nonterminals) ∧
        ∀ p ∈ g.productions, p ∈ h.productions) = true := by
      apply computed_both hg hh
      decide +kernel
    obtain ⟨hstart, hnonterminals, hproductions⟩ := of_decide_eq_true hwithin
    obtain ⟨s, s', hs, hs', -, -, hconflicts, -⟩ :=
      study_extended hg hh hstart hnonterminals hproductions
    have hconflict : decide (Conflict.firstFirst (.single 'S') ⟨.single 'S', symbolsOf "XA"⟩
        ⟨.single 'S', symbolsOf "Xb"⟩ (.single (.single 'c')) ∈ s.conflicts) = true := by
      apply computed_eq hg hs
      decide +kernel
    have hmem := of_decide_eq_true hconflict
    obtain ⟨c, hc, halike, hsubset⟩ := hconflicts _ hmem
    exact ⟨g, h, s, s', hg, hh, hs, hs', hmem, c, hc, halike.nonterminal_eq.symm,
      hsubset _ (SymbolSet.mem_single.2 rfl)⟩
  · obtain ⟨g, hg⟩ : ∃ g, load [("E", ["TR"]), ("R", ["ε"]), ("T", ["i"])] = .ok g := ⟨_, rfl⟩
    obtain ⟨h, hh⟩ : ∃ h, load [("E", ["TR"]), ("T", ["(E)", "i"]), ("R", ["+TR", "ε"])] = .ok h :=
      ⟨_, rfl⟩
    have hwithin : decide (g.start = h.start ∧ (∀ A ∈ g.nonterminals, A ∈ h.nonterminals) ∧
        ∀ p ∈ g.productions, p ∈ h.productions) = true := by
      apply computed_both hg hh
      decide +kernel
    obtain ⟨hstart, hnonterminals, hproductions⟩ := of_decide_eq_true hwithin
    obtain ⟨s, s', hs, hs', -, -, -, hll1⟩ :=
      study_extended hg hh hstart hnonterminals hproductions
    have hlarger : s'.isLL1 = true := by
      apply computed_eq hh hs'
      decide +kernel
    exact ⟨g, h, s, s', hg, hh, hs, hs', hlarger, hll1 hlarger⟩

end Grammar

end Predictive
