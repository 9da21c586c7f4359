import Predictive.Grammar.Basic

/-!
# Derivations

What a grammar means. A step replaces one nonterminal of a sequence by
what one of its productions expands to, wherever it stands (`Produces`);
a derivation is a chain of steps (`Derives`), and the sentences of a
grammar are the sequences of terminals that its start symbol derives.

Derivations do not interact: `Derives.append` puts two of them side by
side, which is how the derivation of a right-hand side is put together
from those of its symbols. `LeftmostBy` is the derivation that always
replaces the leftmost nonterminal, with the productions it applies in
order.
-/

namespace Predictive

namespace Grammar

/-! ## Steps -/

/-- One nonterminal is replaced by what one of its productions expands
to. -/
inductive Produces (g : Grammar) : List Symbol → List Symbol → Prop where
  | intro (before after : List Symbol) (p : Production) (mem : p ∈ g.productions) :
      Produces g (before ++ p.lhs :: after) (before ++ p.expansion ++ after)

namespace Produces

variable {g : Grammar} {l l' : List Symbol}

theorem append_left (h : Produces g l l') (k : List Symbol) : Produces g (k ++ l) (k ++ l') := by
  obtain ⟨before, after, p, mem⟩ := h
  have step := Produces.intro (k ++ before) after p mem
  simpa only [List.append_assoc] using step

theorem append_right (h : Produces g l l') (k : List Symbol) : Produces g (l ++ k) (l' ++ k) := by
  obtain ⟨before, after, p, mem⟩ := h
  have step := Produces.intro before (after ++ k) p mem
  simpa only [List.append_assoc, List.cons_append] using step

end Produces

/-! ## Chains of steps -/

/-- A sequence of symbols derives another in any number of steps. -/
inductive Derives (g : Grammar) : List Symbol → List Symbol → Prop where
  | refl (l : List Symbol) : Derives g l l
  | head {l l' k : List Symbol} (step : Produces g l l') (rest : Derives g l' k) : Derives g l k

namespace Derives

variable {g : Grammar} {l l' k k' : List Symbol}

theorem single (h : Produces g l k) : Derives g l k := .head h (.refl k)

theorem trans (h : Derives g l l') (h' : Derives g l' k) : Derives g l k := by
  induction h with
  | refl => exact h'
  | head step _ ih => exact .head step (ih h')

theorem append_left (h : Derives g l k) (j : List Symbol) : Derives g (j ++ l) (j ++ k) := by
  induction h with
  | refl => exact .refl _
  | head step _ ih => exact .head (step.append_left j) ih

theorem append_right (h : Derives g l k) (j : List Symbol) : Derives g (l ++ j) (k ++ j) := by
  induction h with
  | refl => exact .refl _
  | head step _ ih => exact .head (step.append_right j) ih

/-- Two derivations side by side. -/
theorem append (h : Derives g l k) (h' : Derives g l' k') : Derives g (l ++ l') (k ++ k') :=
  (h.append_right l').trans (h'.append_left k)

/-- A nonterminal derives the right-hand sides of its productions. -/
theorem of_mem {p : Production} (mem : p ∈ g.productions) : Derives g [p.lhs] p.expansion := by
  have step := Produces.intro [] [] p mem
  simpa only [List.nil_append, List.append_nil] using single step

end Derives

/-- A sequence of terminals that the start symbol derives. -/
def IsSentence (g : Grammar) (w : List Symbol) : Prop :=
  (∀ s ∈ w, s.isTerminal) ∧ g.Derives [g.start] w

/-! ## Leftmost derivations -/

/-- The derivation that replaces the leftmost nonterminal by one
production after another. -/
inductive LeftmostBy (g : Grammar) : List Production → List Symbol → List Symbol → Prop where
  | nil (l : List Symbol) : LeftmostBy g [] l l
  | cons {before after k : List Symbol} {p : Production} {ps : List Production}
      (terminal : ∀ s ∈ before, s.isNonterminal = false) (mem : p ∈ g.productions)
      (rest : LeftmostBy g ps (before ++ p.expansion ++ after) k) :
      LeftmostBy g (p :: ps) (before ++ p.lhs :: after) k

namespace LeftmostBy

variable {g : Grammar} {ps : List Production} {l k : List Symbol}

theorem derives (h : LeftmostBy g ps l k) : g.Derives l k := by
  induction h with
  | nil l => exact .refl l
  | cons _ mem _ ih => exact .head (.intro _ _ _ mem) ih

end LeftmostBy

end Grammar

end Predictive
