import Predictive.Grammar.Basic
import Predictive.Sets.Saturation

/-!
# FIRST

The symbols with which what a sequence derives can begin, and ε when it
can derive the empty word. A sequence is read from the left: it stops
at the first terminal and at the first nonterminal that cannot vanish,
and an ε standing in it is passed over.

The reading needs the set of each nonterminal it passes. While FIRST is
computed every nonterminal has one, so the reading is total
(`firstOfSequence`); over a finished map it may meet a nonterminal that
has none (`SetMap.firstOfSequence`). The two agree where the second
gives an answer (`SetMap.firstOfSequence_eq_ok`).
-/

namespace Predictive

/-! ## Sequences -/

/-- FIRST of a sequence, where `sets` holds FIRST of each
nonterminal. -/
def firstOfSequence (sets : Symbol → SymbolSet) : List Symbol → SymbolSet
  | [] => .single .epsilon
  | s :: rest =>
    if s = .epsilon then firstOfSequence sets rest
    else if s.isNonterminal then
      if .epsilon ∈ sets s then (sets s).erase .epsilon ∪ firstOfSequence sets rest else sets s
    else .single s

namespace SetMap

def firstOfSequence (first : SetMap) : List Symbol → Except AnalysisError SymbolSet
  | [] => .ok (.single .epsilon)
  | s :: rest =>
    if s = .epsilon then first.firstOfSequence rest
    else if s.isNonterminal then
      match first.require s with
      | .error e => .error e
      | .ok here =>
        if .epsilon ∈ here then (first.firstOfSequence rest).map (here.erase .epsilon ∪ ·)
        else .ok here
    else .ok (.single s)

def firstOfSymbol (first : SetMap) (s : Symbol) : Except AnalysisError SymbolSet :=
  if s = .epsilon then .ok (.single .epsilon)
  else if s.isNonterminal then first.require s
  else .ok (.single s)

/-- Where a finished map has an answer, it is the total reading's. -/
theorem firstOfSequence_eq_ok {first : SetMap} {l : List Symbol} {S : SymbolSet}
    (h : first.firstOfSequence l = .ok S) : Predictive.firstOfSequence first.find l = S := by
  induction l generalizing S with
  | nil => simpa [firstOfSequence, Predictive.firstOfSequence] using h
  | cons s l ih =>
    simp only [firstOfSequence] at h
    simp only [Predictive.firstOfSequence]
    split at h
    · next he => rw [if_pos he]; exact ih h
    · next he =>
      rw [if_neg he]
      split at h
      · next hn =>
        rw [if_pos hn]
        split at h
        · cases h
        · next here hs =>
          have hf : first.find s = here := find_of_require hs
          rw [hf]
          split at h
          · next hm =>
            rw [if_pos hm]
            cases hr : first.firstOfSequence l with
            | error e => simp [hr, Except.map] at h
            | ok T =>
              simp only [hr, Except.map, Except.ok.injEq] at h
              rw [ih hr, h]
          · next hm => rw [if_neg hm]; simpa using h
      · next hn => rw [if_neg hn]; simpa using h

end SetMap

/-! ## The map of a grammar -/

namespace Grammar

/-- One pass: each production, in order, adds FIRST of its right-hand
side to the set of its left-hand side. -/
def firstPass (g : Grammar) (m : SetMap) : SetMap :=
  g.productions.foldl (fun m p => m.addAll p.lhs (firstOfSequence m.find p.rhs)) m

/-- Enough passes for FIRST from a seed: the sets of the seed's keys and
of the heads hold symbols of the seed and of right-hand sides, and
ε. -/
def firstAllowance (g : Grammar) (seed : SetMap) : Nat :=
  Saturation.capacity (seed.size + g.rules.size)
    (seed.total + tally (·.rhs.length) g.productions + 1)

/-- FIRST of a grammar, grown from a seed. -/
def first (g : Grammar) (seed : SetMap) : Saturation :=
  (Saturation.run g.firstPass (g.firstAllowance seed) seed).restrict g.nonterminals

end Grammar

end Predictive
