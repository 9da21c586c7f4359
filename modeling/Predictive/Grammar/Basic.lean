import Predictive.OrderedMap
import Predictive.Production
import Predictive.Text.Quoted

/-!
# Grammars

A grammar has a start symbol and, for each nonterminal in order of
first appearance, the list of its right-hand sides. This type carries
no more than that: a right-hand side may be empty, use nonterminals
that have no rule, or hold ε beside other symbols. What a grammar read
from lines satisfies on top is `WellFormed`, and `Grammar.load` is the
only way in the library to come by a grammar that promises it.
-/

namespace Predictive

/-- A context-free grammar: a start symbol and the alternatives of each
nonterminal, in the order in which they were declared. -/
structure Grammar where
  start : Symbol
  rules : OrderedMap Symbol (List (List Symbol))
deriving DecidableEq

namespace Grammar

def nonterminals (g : Grammar) : List Symbol := g.rules.keys

def productions (g : Grammar) : List Production :=
  g.rules.entries.flatMap fun (head, bodies) => bodies.map (⟨head, ·⟩)

/-- The terminals on the right-hand sides, each once, in order of first
appearance. -/
def terminals (g : Grammar) : List Symbol :=
  (g.productions.flatMap fun p => p.rhs.filter Symbol.isTerminal).eraseDups

/-- The productions of one nonterminal, when it has a rule. -/
def alternatives? (g : Grammar) (head : Symbol) : Option (List Production) :=
  (g.rules.get? head).map (·.map (⟨head, ·⟩))

def size (g : Grammar) : Nat := g.productions.length

def text (g : Grammar) : Text :=
  "Grammar(start=" ++ Text.quoted g.start.text ++ ", " ++
    Text.join "; " (g.productions.map Production.text) ++ ")"

theorem mem_productions {g : Grammar} {p : Production} :
    p ∈ g.productions ↔ ∃ bodies, (p.lhs, bodies) ∈ g.rules.entries ∧ p.rhs ∈ bodies := by
  obtain ⟨lhs, rhs⟩ := p
  simp only [productions, List.mem_flatMap, List.mem_map, Prod.exists, Production.mk.injEq]
  constructor
  · rintro ⟨a, bodies, h, rhs', hb, rfl, rfl⟩
    exact ⟨bodies, h, hb⟩
  · rintro ⟨bodies, h, hb⟩
    exact ⟨lhs, bodies, h, rhs, hb, rfl, rfl⟩

theorem lhs_mem_nonterminals {g : Grammar} {p : Production} (h : p ∈ g.productions) :
    p.lhs ∈ g.nonterminals := by
  obtain ⟨bodies, hb, _⟩ := mem_productions.1 h
  exact List.mem_map.2 ⟨_, hb, rfl⟩

/-! ## Well-formed grammars -/

/-- A right-hand side in normal form: ε alone, or a non-empty sequence
of single visible code points without ε and the end marker. -/
structure NormalBody (body : List Symbol) : Prop where
  ne_nil : body ≠ []
  single : ∀ s ∈ body, ∃ c, s = Symbol.single c ∧ Text.isBlank c = false
  epsilon_alone : Symbol.epsilon ∈ body → body = [Symbol.epsilon]
  no_endMarker : ¬ Symbol.endMarker ∈ body

/-- What a normal right-hand side puts in the place of its left-hand side
is what it holds apart from ε. -/
theorem NormalBody.expansion_eq {p : Production} (h : NormalBody p.rhs) :
    p.expansion = p.rhs.filter (· != .epsilon) := by
  by_cases hε : Symbol.epsilon ∈ p.rhs
  · have hrhs := h.epsilon_alone hε
    rw [Production.expansion, if_pos (Production.isEpsilon_iff.2 hrhs), hrhs]
    rfl
  · have hne : p.isEpsilon = false := by
      rw [Bool.eq_false_iff]
      intro he
      rw [Production.isEpsilon_iff.1 he] at hε
      exact hε (List.mem_singleton_self _)
    rw [Production.expansion, hne, if_neg Bool.false_ne_true]
    refine (List.filter_eq_self.2 fun s hs => ?_).symm
    rw [bne_iff_ne]
    rintro rfl
    exact hε hs

/-- What reading a grammar establishes: there is a first rule and its
head is the start symbol, heads are nonterminals, right-hand sides are
in normal form and distinct within a rule, and every nonterminal in use
has a rule. -/
structure WellFormed (g : Grammar) : Prop where
  start_first : g.nonterminals.head? = some g.start
  head_nonterminal : ∀ A ∈ g.nonterminals, A.isNonterminal
  normal : ∀ p ∈ g.productions, NormalBody p.rhs
  distinct : ∀ A bodies, (A, bodies) ∈ g.rules.entries → bodies.Nodup
  defined : ∀ p ∈ g.productions, ∀ s ∈ p.rhs, s.isNonterminal → s ∈ g.nonterminals

theorem WellFormed.lhs_ne_epsilon {g : Grammar} (h : g.WellFormed) {p : Production}
    (mem : p ∈ g.productions) : p.lhs ≠ .epsilon :=
  Symbol.ne_epsilon_of_isNonterminal (h.head_nonterminal _ (lhs_mem_nonterminals mem))

end Grammar

end Predictive
