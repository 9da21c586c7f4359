import Predictive.Grammar.Derivation
import Predictive.Tree.Basic

/-!
# Derivation trees

The trees that a grammar allows: a leaf is a matched terminal, or the
matched ε of a production for the empty word, and any other node is a
nonterminal whose children spell the right-hand side of one of its
productions. A derivation tree derives the word at its leaves from its
root (`IsDerivation.derives_root`).
-/

namespace Predictive

namespace Tree

/-! ## The word of a tree -/

mutual
/-- The symbols at the leaves of a tree from left to right, without
ε. -/
def word : Tree → List Symbol
  | .node s _ [] => if s = .epsilon then [] else [s]
  | .node _ _ (t :: ts) => word t ++ words ts

def words : List Tree → List Symbol
  | [] => []
  | t :: ts => word t ++ words ts
end

@[simp] theorem word_matched (s : Symbol) :
    (matched s).word = if s = .epsilon then [] else [s] := by
  rw [matched, word]

@[simp] theorem words_nil : words [] = [] := by rw [words]

@[simp] theorem words_cons (t : Tree) (ts : List Tree) : words (t :: ts) = t.word ++ words ts := by
  rw [words]

theorem word_node {ts : List Tree} (h : ts ≠ []) (s : Symbol) (b : Bool) :
    (node s b ts).word = words ts := by
  cases ts with
  | nil => exact absurd rfl h
  | cons t ts => rw [word, words]

/-! ## Trees of a grammar -/

inductive IsDerivation (g : Grammar) : Tree → Prop where
  | terminal (s : Symbol) (h : s.isTerminal) : IsDerivation g (.matched s)
  | epsilon : IsDerivation g (.matched .epsilon)
  | node (p : Production) (mem : p ∈ g.productions) (ts : List Tree)
      (spells : ts.map symbol = p.rhs) (below : ∀ t ∈ ts, IsDerivation g t) :
      IsDerivation g (.node p.lhs false ts)

namespace IsDerivation

variable {g : Grammar}

theorem derives_words {ts : List Tree}
    (h : ∀ t ∈ ts, g.Derives (if t.symbol = .epsilon then [] else [t.symbol]) t.word) :
    g.Derives ((ts.map symbol).filter (· != .epsilon)) (words ts) := by
  induction ts with
  | nil =>
    rw [words_nil]
    exact .refl []
  | cons t ts ih =>
    have here := h t (List.mem_cons_self ..)
    have rest := ih fun t ht => h t (List.mem_cons_of_mem _ ht)
    rw [words_cons, List.map_cons]
    by_cases he : t.symbol = .epsilon
    · rw [if_pos he] at here
      rw [List.filter_cons_of_neg (by simp [he])]
      exact here.append rest
    · rw [if_neg he] at here
      rw [List.filter_cons_of_pos (by simp [he])]
      exact here.append rest

/-- A derivation tree of a well-formed grammar derives its word from its
root. -/
theorem derives_root (wf : g.WellFormed) {t : Tree} (h : IsDerivation g t) :
    g.Derives (if t.symbol = .epsilon then [] else [t.symbol]) t.word := by
  induction h with
  | terminal s hs =>
    rw [word_matched]
    exact .refl _
  | epsilon =>
    rw [word_matched]
    exact .refl _
  | node p mem ts spells _ ih =>
    have hts : ts ≠ [] := by
      rintro rfl
      exact (wf.normal p mem).ne_nil spells.symm
    have hforest := derives_words ih
    rw [spells, ← (wf.normal p mem).expansion_eq] at hforest
    rw [word_node hts]
    show g.Derives (if p.lhs = .epsilon then [] else [p.lhs]) (words ts)
    rw [if_neg (wf.lhs_ne_epsilon mem)]
    exact (Grammar.Derives.of_mem mem).trans hforest

end IsDerivation

end Tree

end Predictive
