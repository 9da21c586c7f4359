import Predictive.Grammar.Basic
import Predictive.Grammar.Error

/-!
# Grammars from left-hand sides and alternatives

A grammar is built from pairs of a left-hand side and its alternatives.
Blanks never matter; an alternative without any symbol, or with ε
alone, is the empty word. A left-hand side that comes again adds to its
earlier rule, and an alternative that is there already is not added.
The first left-hand side is the start symbol. `load` either names the
first thing wrong with the pairs or gives a well-formed grammar
(`wellFormed_of_load`).
-/

namespace Predictive

namespace Grammar

/-! ## Alternatives -/

/-- The right-hand side that an alternative of `head` spells. -/
def readBody (head alternative : Text) : Except GrammarError (List Symbol) :=
  let symbols := symbolsOf (Text.unblank alternative)
  if symbols = [] ∨ symbols = [Symbol.epsilon] then .ok [Symbol.epsilon]
  else if Symbol.epsilon ∈ symbols then .error (.epsilonInside head alternative)
  else if Symbol.endMarker ∈ symbols then .error (.endMarkerInside head alternative)
  else .ok symbols

def readBodies (head : Text) : List Text → Except GrammarError (List (List Symbol))
  | [] => .ok []
  | alternative :: rest => do
    let body ← readBody head alternative
    let bodies ← readBodies head rest
    return body :: bodies

/-- The bodies of `old` followed by those of `new` that were not there
before. -/
def appendNew (old new : List (List Symbol)) : List (List Symbol) :=
  new.foldl (fun bodies body => if body ∈ bodies then bodies else bodies ++ [body]) old

/-! ## Rules -/

/-- The rules with one more pair of a left-hand side and alternatives. -/
def addRule (rules : OrderedMap Symbol (List (List Symbol))) (pair : Text × List Text) :
    Except GrammarError (OrderedMap Symbol (List (List Symbol))) := do
  let head : Symbol := ⟨Text.strip pair.1⟩
  if head.isNonterminal then
    let bodies ← readBodies head.text pair.2
    return rules.alter head fun old => appendNew (old.getD []) bodies
  else throw (.badHead head.text)

def addRules (rules : OrderedMap Symbol (List (List Symbol))) :
    List (Text × List Text) → Except GrammarError (OrderedMap Symbol (List (List Symbol)))
  | [] => .ok rules
  | pair :: pairs => do addRules (← addRule rules pair) pairs

/-- The first nonterminal in use that has no rule, with the production
that uses it. -/
def undefined? (g : Grammar) : Option (Symbol × Production) :=
  g.productions.findSome? fun p =>
    (p.rhs.find? fun s => s.isNonterminal && !g.rules.contains s).map (·, p)

/-- The grammar of a list of left-hand sides with their alternatives. -/
def load (pairs : List (Text × List Text)) : Except GrammarError Grammar := do
  let rules ← addRules ∅ pairs
  match rules.keys.head? with
  | none => throw .noProductions
  | some start =>
    let g : Grammar := ⟨start, rules⟩
    match g.undefined? with
    | some (symbol, production) => throw (.undefined symbol production)
    | none => return g

/-! ## Single alternatives -/

/-- What is given for a left-hand side: one alternative, or a list of
them. -/
inductive Alternatives where
  | one (alternative : Text)
  | list (alternatives : List Text)

def Alternatives.toList : Alternatives → List Text
  | one alternative => [alternative]
  | list alternatives => alternatives

/-- The pairs with each alternative that was given alone as a list. -/
def listed (given : List (Text × Alternatives)) : List (Text × List Text) :=
  given.map fun pair => (pair.1, pair.2.toList)

/-- The grammar of left-hand sides with one alternative or several. -/
def loadGiven (given : List (Text × Alternatives)) : Except GrammarError Grammar :=
  load (listed given)

end Grammar

end Predictive
