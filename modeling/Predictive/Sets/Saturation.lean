import Predictive.Sets.SetMap

/-!
# Passes until nothing grows

FIRST and FOLLOW are the limits of a pass that only ever adds symbols
to sets. The pass is repeated until one leaves the total size
unchanged, and the size after each pass is kept, since it is reported.

The number of passes allowed is a parameter. A pass that does not end
the repetition adds a symbol, so a bound on the symbols that can ever
be in the sets is a bound that is never reached; `capacity` is such a
bound, and the callers pass it.
-/

namespace Predictive

/-- The sets that repeated passes arrived at, and their total size
after each pass. -/
structure Saturation where
  sets : SetMap
  totals : List Nat
deriving DecidableEq

namespace Saturation

/-- Repeats a pass until the total size stands still, at most
`allowance` times. -/
def run (pass : SetMap → SetMap) : Nat → SetMap → Saturation
  | 0, m => ⟨m, []⟩
  | allowance + 1, m =>
    let m' := pass m
    if m'.total = m.total then ⟨m', [m'.total]⟩
    else
      let rest := run pass allowance m'
      ⟨rest.sets, m'.total :: rest.totals⟩

/-- More passes than can be needed when the sets of `rows` nonterminals
never hold anything but `symbols` symbols: each pass before the last
adds one. -/
def capacity (rows symbols : Nat) : Nat := rows * symbols + 1

def passes (s : Saturation) : Nat := s.totals.length

def restrict (s : Saturation) (nonterminals : List Symbol) : Saturation :=
  ⟨s.sets.restrict nonterminals, s.totals⟩

end Saturation

end Predictive
