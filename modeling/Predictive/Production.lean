import Predictive.Symbol

/-!
# Productions

A production replaces a nonterminal, its left-hand side, by a sequence
of symbols, its right-hand side. The right-hand side that is ε
alone stands for the empty word; an ε among other symbols has no such
reading.
-/

namespace Predictive

/-- One alternative of a nonterminal. -/
structure Production where
  lhs : Symbol
  rhs : List Symbol
deriving DecidableEq

namespace Production

theorem ext {p q : Production} (hlhs : p.lhs = q.lhs) (hrhs : p.rhs = q.rhs) : p = q := by
  obtain ⟨A, rhs⟩ := p
  obtain ⟨B, rhs'⟩ := q
  exact Production.mk.injEq .. |>.mpr ⟨hlhs, hrhs⟩

/-- The production replaces its left-hand side by the empty word. -/
def isEpsilon (p : Production) : Bool := p.rhs == [Symbol.epsilon]

theorem isEpsilon_iff {p : Production} : p.isEpsilon ↔ p.rhs = [Symbol.epsilon] := by
  simp [isEpsilon]

/-- The symbols that take the place of the left-hand side: none for the
empty word. -/
def expansion (p : Production) : List Symbol := if p.isEpsilon then [] else p.rhs

def body (p : Production) : Text := spell p.rhs

/-- The production as text, with an arrow between its sides. -/
def text (p : Production) : Text := p.lhs.text ++ "->" ++ p.body

end Production

end Predictive
