import Predictive.Sets.First

/-!
# FOLLOW

The symbols that can stand behind a nonterminal, and the end marker
behind one that can end a sentence. Each occurrence of a nonterminal B
on the right-hand side of A gives one rule: what can begin the rest of
the right-hand side follows B, and if that rest can vanish, what
follows A follows B. Collecting the rules is the only step that reads
FIRST, so it is the only one that can fail; a pass over the rules then
adds symbols and cannot.
-/

namespace Predictive

/-- What one occurrence of `target` on a right-hand side of `source`
says about FOLLOW. -/
structure FollowRule where
  target : Symbol
  source : Symbol
  /-- What can begin the rest of the right-hand side. -/
  starts : SymbolSet
  /-- The rest of the right-hand side can vanish. -/
  inherits : Bool
deriving DecidableEq

namespace FollowRule

/-- The rules of the occurrences in one right-hand side. -/
def ofBody (first : SetMap) (source : Symbol) : List Symbol → Except AnalysisError (List FollowRule)
  | [] => .ok []
  | s :: rest =>
    if s.isNonterminal then do
      let behind ← first.firstOfSequence rest
      let rules ← ofBody first source rest
      return ⟨s, source, behind.erase .epsilon, decide (.epsilon ∈ behind)⟩ :: rules
    else ofBody first source rest

def ofProductions (first : SetMap) : List Production → Except AnalysisError (List FollowRule)
  | [] => .ok []
  | p :: rest => do
    let here ← if p.isEpsilon then .ok [] else ofBody first p.lhs p.rhs
    let others ← ofProductions first rest
    return here ++ others

def apply (r : FollowRule) (m : SetMap) : SetMap :=
  let m := m.addAll r.target r.starts
  if r.inherits then m.addAll r.target (m.find r.source) else m

def pass (rules : List FollowRule) (m : SetMap) : SetMap :=
  rules.foldl (fun m r => r.apply m) m

end FollowRule

namespace Grammar

/-- The sets from which FOLLOW is grown: the end marker behind the start
symbol, and the seed. -/
def followSeed (g : Grammar) (seed : SetMap) : SetMap :=
  seed.entries.foldl (fun m (A, S) => m.addAll A S)
    (SetMap.addAll ∅ g.start (.single .endMarker))

/-- Enough passes for FOLLOW: the sets of the seed's keys and of the
targets of rules hold symbols of the seed and of the rules. -/
def followAllowance (initial : SetMap) (rules : List FollowRule) : Nat :=
  Saturation.capacity (initial.size + rules.length)
    (initial.total + tally (·.starts.size) rules)

/-- FOLLOW of a grammar over its FIRST sets, grown from a seed. -/
def follow (g : Grammar) (first seed : SetMap) : Except AnalysisError Saturation := do
  let rules ← FollowRule.ofProductions first g.productions
  let initial := g.followSeed seed
  return (Saturation.run (FollowRule.pass rules) (followAllowance initial rules)
    initial).restrict g.nonterminals

end Grammar

end Predictive
