import Predictive.Production
import Predictive.Text.Quoted

/-!
# Unusable grammars

The reasons for which a grammar is refused, each with what the message
names: the line, the alternative or the production at fault.
-/

namespace Predictive

/-- Why a grammar is refused. -/
inductive GrammarError where
  /-- A left-hand side is not a single capital letter. -/
  | badHead (head : Text)
  /-- An alternative holds ε beside something else. -/
  | epsilonInside (head alternative : Text)
  | endMarkerInside (head alternative : Text)
  | noProductions
  /-- A nonterminal is used that has no rule. -/
  | undefined (symbol : Symbol) (production : Production)
  /-- A line has neither an arrow nor an equals sign. -/
  | noArrow (line : Text)
  /-- Nothing but blanks stands before the arrow of a line. -/
  | emptyHead (line : Text)
deriving DecidableEq

namespace GrammarError

def message : GrammarError → Text
  | badHead head => "left-hand side " ++ Text.quoted head ++ " is not a single uppercase letter"
  | epsilonInside head alternative =>
    head ++ "->" ++ alternative ++ ": 'ε' must be the whole alternative"
  | endMarkerInside head alternative =>
    head ++ "->" ++ alternative ++ ": '$' is reserved for the end marker"
  | noProductions => "grammar has no productions"
  | undefined symbol production =>
    "nonterminal " ++ Text.quoted symbol.text ++ " used in " ++ production.text ++ " has no productions"
  | noArrow line => "production " ++ Text.quoted line ++ " has no '->' or '=' separator"
  | emptyHead line => "production " ++ Text.quoted line ++ " has an empty left-hand side"

end GrammarError

end Predictive
