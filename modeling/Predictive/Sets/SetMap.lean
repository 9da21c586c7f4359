import Predictive.AnalysisError
import Predictive.OrderedMap
import Predictive.SymbolSet
import Predictive.Tally

/-!
# Sets by nonterminal

FIRST and FOLLOW assign a set of symbols to each nonterminal. While
they are being computed, a nonterminal that was not met yet has the
empty set (`find`); in a finished map it is an error to ask for a
nonterminal that is not there (`require`).
-/

namespace Predictive

/-- A set of symbols for each of some nonterminals. -/
abbrev SetMap := OrderedMap Symbol SymbolSet

namespace SetMap

/-- The set of `A`, empty when there is none. -/
def find (m : SetMap) (A : Symbol) : SymbolSet := (m.get? A).getD ∅

def addAll (m : SetMap) (A : Symbol) (S : SymbolSet) : SetMap :=
  m.alter A fun old => old.getD ∅ ∪ S

/-- The set of `A` in a finished map. -/
def require (m : SetMap) (A : Symbol) : Except AnalysisError SymbolSet :=
  match m.get? A with
  | some S => .ok S
  | none => .error (.missingSet A)

def total (m : SetMap) : Nat := tally SymbolSet.size m.values

def restrict (m : SetMap) (nonterminals : List Symbol) : SetMap :=
  OrderedMap.ofList (nonterminals.map fun A => (A, m.find A))

/-- A map with a line for each set, its members in the order in which
a set is shown. -/
def lines (name : Text) (m : SetMap) : List Text :=
  m.entries.map fun (A, S) =>
    name ++ "(" ++ A.text ++ ") = \x7b " ++ Text.join ", " (S.display.map Symbol.text) ++ " \x7d"

theorem find_addAll (m : SetMap) (A B : Symbol) (S : SymbolSet) :
    (m.addAll A S).find B = if B = A then m.find A ∪ S else m.find B := by
  simp only [find, addAll, OrderedMap.get?_alter]
  split <;> simp

theorem find_of_require {m : SetMap} {A : Symbol} {S : SymbolSet} (h : m.require A = .ok S) :
    m.find A = S := by
  unfold require at h
  split at h
  · next hs => simp only [Except.ok.injEq] at h; simp [find, hs, h]
  · cases h

@[simp] theorem find_empty (A : Symbol) : find ∅ A = ∅ := rfl

end SetMap

end Predictive
