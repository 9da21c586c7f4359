import Predictive.Sets.Follow

/-!
# Conflicts

A grammar is LL(1) when no conflict is found in it. Two alternatives
conflict when FIRST of both holds a common terminal; a nonterminal that
can vanish conflicts with itself when it can begin with what can follow
it. The search never stops at a conflict: `conflicts` lists them all,
rule by rule, the pairs of alternatives in the order in which they were
declared and the clash with FOLLOW last.
-/

namespace Predictive

/-- A violation of the LL(1) condition, with the terminals concerned. -/
inductive Conflict where
  /-- Two alternatives can begin alike. -/
  | firstFirst (nonterminal : Symbol) (left right : Production) (terminals : SymbolSet)
  /-- A vanishing nonterminal can begin with what follows it. -/
  | firstFollow (nonterminal : Symbol) (terminals : SymbolSet)
deriving DecidableEq

namespace Conflict

def nonterminal : Conflict → Symbol
  | firstFirst A _ _ _ => A
  | firstFollow A _ => A

def terminals : Conflict → SymbolSet
  | firstFirst _ _ _ S => S
  | firstFollow _ S => S

/-- The productions in conflict: two, or none. -/
def productions : Conflict → List Production
  | firstFirst _ p q _ => [p, q]
  | firstFollow _ _ => []

def kind : Conflict → Text
  | firstFirst .. => "first/first"
  | firstFollow .. => "first/follow"

/-! ## Wording -/

/-- A set as conflict messages show it. -/
def braced (symbols : List Symbol) : Text :=
  "\x7b " ++ Text.join ", " (symbols.map Symbol.text) ++ " \x7d"

def firstFirstMessage (p q : Production) (symbols : List Symbol) : Text :=
  "FIRST(" ++ p.text ++ ") ∩ FIRST(" ++ q.text ++ ") = " ++ braced symbols

def firstFollowMessage (A : Symbol) (symbols : List Symbol) : Text :=
  "FIRST(" ++ A.text ++ ") ∩ FOLLOW(" ++ A.text ++ ") = " ++ braced symbols ++
    " (ε in FIRST(" ++ A.text ++ "))"

def message : Conflict → Text
  | firstFirst _ p q S => firstFirstMessage p q S.toList
  | firstFollow A S => firstFollowMessage A S.toList

/-! ## Search -/

/-- The pairs of members of a list, the earlier member first. -/
def pairs {α : Type} : List α → List (α × α)
  | [] => []
  | a :: l => l.map (a, ·) ++ pairs l

/-- The conflict of a set of common symbols, when there is one apart
from ε. -/
def ofCommon (make : SymbolSet → Conflict) (common : SymbolSet) : List Conflict :=
  let terminals := common.erase .epsilon
  if terminals.isEmpty then [] else [make terminals]

def ofPairs (first : SetMap) (A : Symbol) :
    List (List Symbol × List Symbol) → Except AnalysisError (List Conflict)
  | [] => .ok []
  | (body, body') :: rest => do
    let S ← first.firstOfSequence body
    let S' ← first.firstOfSequence body'
    let others ← ofPairs first A rest
    return ofCommon (firstFirst A ⟨A, body⟩ ⟨A, body'⟩) (S ∩ S') ++ others

def ofRule (first follow : SetMap) (A : Symbol) (bodies : List (List Symbol)) :
    Except AnalysisError (List Conflict) := do
  let clashes ← ofPairs first A (pairs bodies)
  let S ← first.require A
  if .epsilon ∈ S then
    let F ← follow.require A
    return clashes ++ ofCommon (firstFollow A) (S.erase .epsilon ∩ F)
  else return clashes

def ofRules (first follow : SetMap) :
    List (Symbol × List (List Symbol)) → Except AnalysisError (List Conflict)
  | [] => .ok []
  | (A, bodies) :: rest => do
    let here ← ofRule first follow A bodies
    let others ← ofRules first follow rest
    return here ++ others

end Conflict

def Grammar.conflicts (g : Grammar) (first follow : SetMap) :
    Except AnalysisError (List Conflict) :=
  Conflict.ofRules first follow g.rules.entries

end Predictive
