import Predictive.Proofs.Machine.Allowance
import Predictive.Proofs.Study
import Predictive.Proofs.Tree.Forest

/-!
# The tree of an accepted text

The machine with a table over the productions of a grammar keeps
symbols of the grammar on the end marker (`StandsOn`), and what a step
can do is said once more in the terms of the grammar
(`StandsOn.next`).

The tree is grown from the last move back to the first. The invariant
of that is about every forest at once: whatever derivation trees stand
over the stack after some moves, with the unread input for their word,
regrowing the moves gives derivation trees over the stack before them,
with the input that was unread then (`Reaches.regrow`). When the machine
accepts, nothing is left on the stack and nothing unread, so the empty
forest will do, and what grows from it is one tree over the start symbol
with the whole input for its word (`isDerivation_tree_of_accept`).
-/

namespace Predictive

/-- Every cell holds a production of the grammar for its row. -/
def ParsingTable.IsOf (t : ParsingTable) (g : Grammar) : Prop :=
  ∀ A a p, t.get? A a = some p → p ∈ g.productions ∧ p.lhs = A

theorem Study.IsOf.table_isOf {s : Study} {g : Grammar} (hs : s.IsOf g) (wf : g.WellFormed) :
    s.table.IsOf g := by
  intro A a p hp
  obtain ⟨mem, hlhs, -⟩ := hs.mem_of_get? wf hp
  exact ⟨mem, hlhs⟩

namespace Config

variable {g : Grammar} {t : ParsingTable} {c c' : Config} {σ : List Symbol} {k : Nat}

/-! ## The stack -/

/-- The stack is `σ`, symbols of the grammar, on the end marker. -/
structure StandsOn (g : Grammar) (σ : List Symbol) (c : Config) : Prop where
  stack : c.stack = σ ++ [.endMarker]
  known : ∀ s ∈ σ, g.IsKnown s

namespace StandsOn

theorem initial (wf : g.WellFormed) (input : List Symbol) :
    StandsOn g [g.start] (initial g.start input) where
  stack := rfl
  known _ hs := Or.inl (List.mem_singleton.1 hs ▸ wf.start_mem)

theorem top {A : Symbol} {rest : List Symbol} (h : StandsOn g σ c) (hstack : c.stack = A :: rest)
    (hA : A ≠ .endMarker) : ∃ σ', σ = A :: σ' ∧ rest = σ' ++ [.endMarker] := by
  rw [h.stack] at hstack
  cases σ with
  | nil => exact absurd (List.cons.inj hstack).1.symm hA
  | cons B σ' =>
    obtain ⟨rfl, rfl⟩ := List.cons.inj hstack
    exact ⟨σ', rfl, rfl⟩

theorem known_expansion (wf : g.WellFormed) {p : Production} (mem : p ∈ g.productions)
    (h : ∀ s ∈ p.lhs :: σ, g.IsKnown s) : ∀ s ∈ p.expansion ++ σ, g.IsKnown s := by
  intro s hs
  rcases List.mem_append.1 hs with hs | hs
  · obtain ⟨hrhs, hε⟩ := (wf.mem_expansion mem).1 hs
    exact wf.isKnown_of_mem_rhs mem hrhs hε
  · exact h s (List.mem_cons_of_mem _ hs)

/-- All that a step can do which does not end the run: consume a
terminal of the grammar, or put what one of its productions expands to
in the place of the left-hand side. -/
theorem next (wf : g.WellFormed) (ht : t.IsOf g) (h : StandsOn g σ c)
    (hnext : c.next? t = some c') :
    (∃ s σ', s.isTerminal ∧ σ = s :: σ' ∧ c.unread = s :: c'.unread ∧
      c'.moves = .consume s :: c.moves ∧ StandsOn g σ' c') ∨
    ∃ p ∈ g.productions, ∃ σ', σ = p.lhs :: σ' ∧ t.get? p.lhs c.lookahead = some p ∧
      c'.unread = c.unread ∧ c'.moves = .expand p.lhs p :: c.moves ∧
      StandsOn g (p.expansion ++ σ') c' := by
  rcases next?_cases hnext with
    ⟨s, rest, unread, hstack, hunread, hend, hs, rfl⟩ | ⟨A, rest, p, hstack, hA, hp, rfl⟩
  · obtain ⟨σ', rfl, rfl⟩ := h.top hstack hend
    have hknown := h.known s (List.mem_cons_self ..)
    have hε : s ≠ .epsilon := by
      rintro rfl
      exact wf.epsilon_not_isKnown hknown
    exact Or.inl ⟨s, σ', Symbol.isTerminal_iff.2 ⟨hs, hε⟩, rfl, hunread, rfl, rfl,
      fun s hs => h.known s (List.mem_cons_of_mem _ hs)⟩
  · have hend : A ≠ .endMarker := by
      rintro rfl
      cases hA
    obtain ⟨σ', rfl, rfl⟩ := h.top hstack hend
    obtain ⟨mem, rfl⟩ := ht A _ p hp
    exact Or.inr ⟨p, mem, σ', rfl, hp, rfl, rfl, (List.append_assoc ..).symm,
      known_expansion wf mem h.known⟩

theorem exists_consume (wf : g.WellFormed) {s : Symbol} {unread : List Symbol}
    (h : StandsOn g (s :: σ) c) (hs : s.isTerminal) (hunread : c.unread = s :: unread) :
    ∃ c', c.next? t = some c' ∧ StandsOn g σ c' ∧ c'.unread = unread := by
  have hend : s ≠ .endMarker := by
    rintro rfl
    exact wf.endMarker_not_isKnown (h.known _ (List.mem_cons_self ..))
  refine ⟨_, next?_consume h.stack hunread hend (Symbol.isTerminal_iff.1 hs).1, ?_, rfl⟩
  exact ⟨rfl, fun s hs => h.known s (List.mem_cons_of_mem _ hs)⟩

theorem exists_expand (wf : g.WellFormed) {p : Production} (mem : p ∈ g.productions)
    (h : StandsOn g (p.lhs :: σ) c) (hp : t.get? p.lhs c.lookahead = some p) :
    ∃ c', c.next? t = some c' ∧ StandsOn g (p.expansion ++ σ) c' ∧ c'.unread = c.unread := by
  have hn := wf.lhs_isNonterminal mem
  refine ⟨_, next?_expand h.stack hn hp, ?_, rfl⟩
  exact ⟨(List.append_assoc ..).symm, known_expansion wf mem h.known⟩

theorem accept_of_nil (h : StandsOn g [] c) (hunread : c.unread = []) : c.act t = .accept :=
  act_eq_accept_iff.2 ⟨⟨[], h.stack⟩, hunread⟩

theorem eq_nil_of_accept (wf : g.WellFormed) (h : StandsOn g σ c) (haccept : c.act t = .accept) :
    σ = [] ∧ c.unread = [] := by
  obtain ⟨⟨rest, hstack⟩, hunread⟩ := act_eq_accept_iff.1 haccept
  refine ⟨?_, hunread⟩
  rw [h.stack] at hstack
  cases σ with
  | nil => rfl
  | cons s σ' =>
    obtain ⟨rfl, -⟩ := List.cons.inj hstack
    exact absurd (h.known _ (List.mem_cons_self ..)) wf.endMarker_not_isKnown

end StandsOn

end Config

/-! ## Regrowing -/

/-- Regrowing an expansion puts the trees over it below a node. -/
theorem Move.regrow_expand {p : Production} {body : List Tree}
    (hbody : body.map Tree.symbol = p.expansion) (top : Symbol) (rest : List Tree) :
    Move.regrow (.expand top p) (body ++ rest) = .node top false (p.childrenOver body) :: rest := by
  rw [Production.expansion] at hbody
  rw [Move.regrow, Production.childrenOver]
  split
  · next hp =>
    rw [if_pos hp, List.map_eq_nil_iff] at hbody
    rw [hbody, List.nil_append]
  · next hp =>
    rw [if_neg hp] at hbody
    rw [← hbody, List.length_map, List.take_left, List.drop_left]

namespace Config

open Predictive.Tree (IsForest IsDerivation)

variable {g : Grammar} {t : ParsingTable} {c c' : Config} {σ : List Symbol} {k : Nat}

/-- Regrowing the moves between two configurations turns trees over the
later stack into trees over the earlier one. -/
theorem Reaches.regrow (wf : g.WellFormed) (ht : t.IsOf g) (h : Reaches t k c c')
    (hc : StandsOn g σ c) :
    ∃ σ' moves, StandsOn g σ' c' ∧ c'.moves = moves ++ c.moves ∧
      ∀ ts, IsForest g σ' c'.unread ts →
        IsForest g σ c.unread (moves.foldl (fun forest move => move.regrow forest) ts) := by
  induction h generalizing σ with
  | refl => exact ⟨σ, [], hc, rfl, fun ts hts => hts⟩
  | @step k c c₁ c' hnext _ ih =>
    rcases hc.next wf ht hnext with
      ⟨s, σ₁, hs, rfl, hunread, hmoves, hc₁⟩ | ⟨p, mem, σ₁, rfl, -, hunread, hmoves, hc₁⟩
    · obtain ⟨σ', moves, hc', hmoves', hgrow⟩ := ih hc₁
      refine ⟨σ', moves ++ [.consume s], hc', by simp [hmoves', hmoves], fun ts hts => ?_⟩
      rw [List.foldl_append, hunread]
      exact (IsForest.matched hs).append (hgrow ts hts)
    · obtain ⟨σ', moves, hc', hmoves', hgrow⟩ := ih hc₁
      refine ⟨σ', moves ++ [.expand p.lhs p], hc', by simp [hmoves', hmoves], fun ts hts => ?_⟩
      obtain ⟨body, rest, hsplit, hwords, hbody, hrest⟩ := (hgrow ts hts).split
      rw [List.foldl_append, hsplit, ← hunread, hwords]
      show IsForest g _ _ (Move.regrow (.expand p.lhs p) (body ++ rest))
      rw [Move.regrow_expand hbody.roots]
      exact (hbody.node wf mem).append hrest

theorem isDerivation_tree_of_accept (wf : g.WellFormed) (ht : t.IsOf g) {input : List Symbol}
    (h : Reaches t k (initial g.start input) c) (haccept : c.act t = .accept) :
    IsDerivation g c.tree ∧ c.tree.symbol = g.start ∧ c.tree.word = input := by
  obtain ⟨σ, moves, hc, hmoves, hgrow⟩ := h.regrow wf ht (.initial wf input)
  obtain ⟨rfl, hunread⟩ := hc.eq_nil_of_accept wf haccept
  have hforest := hgrow [] (by rw [hunread]; exact .nil)
  have hmoves : c.moves = moves := by simpa [initial] using hmoves
  have hgrown : c.forest = moves.foldl (fun forest move => move.regrow forest) [] := by
    rw [forest, hc.stack, hmoves]
    rfl
  rw [← hgrown] at hforest
  obtain ⟨tree, hts, htree⟩ := hforest.eq_singleton
  have hhead : c.tree = tree := by rw [Config.tree, hts]; rfl
  exact hhead ▸ htree

end Config

theorem Study.IsOf.exists_tree {s : Study} {g : Grammar} (hs : s.IsOf g) (wf : g.WellFormed)
    {text : Text} (haccept : (s.parse text).isAccepted) :
    ∃ tree, (s.parse text).tree? = some tree ∧ Tree.IsDerivation g tree ∧ tree.symbol = g.start ∧
      tree.word = symbolsOf (Text.unblank text) := by
  rw [Study.parse, hs.grammar] at haccept ⊢
  obtain ⟨k, c, hreach, hact⟩ := ParsingTable.isAccepted_parse_iff.1 haccept
  have hend := Config.next?_of_accept hact
  have hlast := (hreach.last_run hend (hreach.lt_allowance hend)).1
  refine ⟨c.tree, ?_, Config.isDerivation_tree_of_accept wf (hs.table_isOf wf) hreach hact⟩
  rw [Run.tree?, if_pos haccept]
  exact congrArg (some ∘ Config.tree) hlast

/-! ## The law of accepted texts -/

namespace Grammar

variable {pairs : List (Text × List Text)} {g : Grammar}

/-- The tree of an accepted text is a derivation tree of the grammar
for the text without its blanks, whether or not the grammar is LL(1). -/
theorem derivation_of_isAccepted (h : load pairs = .ok g) :
    ∃ s, g.study = .ok s ∧ ∀ text, (s.parse text).isAccepted →
      g.IsSentence (symbolsOf (Text.unblank text)) ∧
      ∃ tree, (s.parse text).tree? = some tree ∧ tree.symbol = g.start ∧
        tree.text = Text.unblank text ∧
        (∀ u ∈ tree.preorder, u.children ≠ [] →
          u.isTerminal = false ∧ u.symbol ∈ g.nonterminals ∧
            ⟨u.symbol, u.children.map Tree.symbol⟩ ∈ g.productions) ∧
        ∀ u ∈ tree.preorder, u.children = [] →
          u.isTerminal ∧ (u.symbol ∈ g.terminals ∨ u.symbol = .epsilon) := by
  have wf := wellFormed_of_load h
  obtain ⟨s, hs, hof⟩ := exists_study wf
  refine ⟨s, hs, fun text haccept => ?_⟩
  rw [Study.parse, hof.grammar] at haccept ⊢
  obtain ⟨k, c, hreach, hact⟩ := ParsingTable.isAccepted_parse_iff.1 haccept
  obtain ⟨hd, hroot, hword⟩ := Config.isDerivation_tree_of_accept wf (hof.table_isOf wf) hreach hact
  have hlast : (s.table.parse g.start text).last = c :=
    (hreach.last_run (Config.next?_of_accept hact)
      (hreach.lt_allowance (Config.next?_of_accept hact))).1
  have hknown : g.IsKnown c.tree.symbol := Or.inl (hroot ▸ wf.start_mem)
  refine ⟨(Tree.isSentence_iff_tree wf).2 ⟨_, hd, hroot, hword⟩, c.tree, ?_, hroot, ?_,
    fun u hu hinner => ?_, fun u hu hleaf => ?_⟩
  · rw [Run.tree?, if_pos haccept, hlast]
  · rw [Tree.text_eq_spell_word, hword, spell_symbolsOf]
  · cases hd.of_mem_preorder hu with
    | terminal _ _ => exact absurd rfl hinner
    | epsilon => exact absurd rfl hinner
    | node p mem ts spells _ =>
      refine ⟨rfl, lhs_mem_nonterminals mem, ?_⟩
      show (⟨p.lhs, ts.map Tree.symbol⟩ : Production) ∈ g.productions
      rw [spells]
      exact mem
  · exact ⟨((hd.of_mem_preorder hu).leaf wf hleaf).1, hd.leaf_mem_terminals wf hknown hu hleaf⟩

/-- A grammar with two readings of a text, of which the table keeps
one. -/
theorem derivation_of_isAccepted_of_ambiguous :
    ∃ g s, load [("S", ["aSA", "ε"]), ("A", ["ε", "b"])] = .ok g ∧ g.study = .ok s ∧
      s.isLL1 = false ∧ (s.parse "a ab").isAccepted ∧ g.IsSentence (symbolsOf "aab") ∧
      ∃ tree, (s.parse "a ab").tree? = some tree ∧ tree.text = "aab" := by
  obtain ⟨g, h⟩ : ∃ g, load [("S", ["aSA", "ε"]), ("A", ["ε", "b"])] = .ok g := ⟨_, rfl⟩
  obtain ⟨s, hs, hlaw⟩ := derivation_of_isAccepted h
  have hrun : (s.isLL1, (s.parse "a ab").isAccepted) = (false, true) := by
    apply computed_eq h hs
    decide +kernel
  obtain ⟨hll1, haccept⟩ := Prod.mk.inj hrun
  obtain ⟨hsentence, tree, htree, -, htext, -⟩ := hlaw "a ab" haccept
  exact ⟨g, s, h, hs, hll1, haccept, hsentence, tree, htree, htext⟩

end Grammar

end Predictive
