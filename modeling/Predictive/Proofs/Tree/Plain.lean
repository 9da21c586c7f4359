import Predictive.Proofs.Grammar.Printed
import Predictive.Proofs.Machine.Regrowth

/-!
# Plain trees

In a plain tree each node carries a single visible code point. It is a
capital letter at a node with children, which is not marked, and anything
at a leaf, which is. The trees of accepted texts are plain
(`Study.IsOf.isPlain`). So nothing is known of a leaf but that it is
visible: it can be any sign that a printer of trees uses itself.
-/

namespace Predictive

namespace Tree

inductive IsPlain : Tree → Prop
  | leaf (c : CodePoint) (visible : Text.isBlank c = false) : IsPlain (.matched (.single c))
  | inner (A : Symbol) (h : A.isNonterminal) (ts : List Tree) (ne_nil : ts ≠ [])
      (below : ∀ u ∈ ts, IsPlain u) : IsPlain (.node A false ts)

variable {g : Grammar} {t u : Tree}

namespace IsPlain

theorem exists_single (h : IsPlain t) (hu : u ∈ t.preorder) :
    ∃ c, u.symbol = .single c ∧ Text.isBlank c = false := by
  induction h with
  | leaf c visible =>
    obtain rfl := mem_preorder_matched.1 hu
    exact ⟨c, rfl, visible⟩
  | inner A h ts ne_nil below ih =>
    rw [preorder_eq] at hu
    rcases List.mem_cons.1 hu with rfl | hu
    · obtain ⟨c, hc, visible, -⟩ := Symbol.exists_single h
      exact ⟨c, hc, visible⟩
    · obtain ⟨v, hv, hu⟩ := mem_preorderAll.1 hu
      exact ih v hv hu

end IsPlain

theorem IsDerivation.isPlain (wf : g.WellFormed) (h : IsDerivation g t)
    (hroot : g.IsKnown t.symbol ∨ t.symbol = .epsilon) : IsPlain t := by
  induction h with
  | terminal s hs =>
    obtain ⟨hn, hε⟩ := Symbol.isTerminal_iff.1 hs
    rcases hroot with (hA | hs) | hs
    · have hA := wf.head_nonterminal s hA
      rw [hn] at hA
      cases hA
    · obtain ⟨-, p, mem, hp⟩ := Grammar.mem_terminals.1 hs
      obtain ⟨c, rfl, visible⟩ := (wf.normal p mem).single s hp
      exact .leaf c visible
    · exact absurd hs hε
  | epsilon => exact .leaf _ (by decide)
  | node p mem ts spells below ih =>
    refine .inner p.lhs (wf.lhs_isNonterminal mem) ts (ne_nil_of_map_symbol wf mem spells) ?_
    intro u hu
    refine ih u hu ?_
    by_cases hε : u.symbol = .epsilon
    · exact Or.inr hε
    · exact Or.inl (wf.isKnown_of_mem_rhs mem (spells ▸ List.mem_map_of_mem hu) hε)

end Tree

theorem Study.IsOf.isPlain {s : Study} {g : Grammar} (hs : s.IsOf g) (wf : g.WellFormed)
    {text : Text} {tree : Tree} (htree : (s.parse text).tree? = some tree) : tree.IsPlain := by
  have haccept : (s.parse text).isAccepted := by
    by_contra hreject
    rw [Run.tree?, if_neg hreject] at htree
    cases htree
  obtain ⟨u, hu, hd, hroot, -⟩ := hs.exists_tree wf haccept
  obtain rfl := Option.some.inj (hu.symm.trans htree)
  exact hd.isPlain wf (Or.inl (Or.inl (hroot ▸ wf.start_mem)))

end Predictive
