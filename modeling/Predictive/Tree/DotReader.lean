import Predictive.Tree.Dot

/-!
# Reading DOT graphs

The other side of the printer: which statements a text of the DOT
language has. Only the part of the language that says something about
nodes and edges is read: comments up to the end of a line, the braces of
one directed graph, and in these the statements of nodes with attributes
and of edges between two nodes.

An identifier is a bare name, but no word of the language, a bare
numeral, or any text between double quotes. Such a text goes to the next
double quote that does not stand behind a backslash; one that does is
part of the text, without the backslash. So a text cannot end with a
backslash.

Tokens are read code point by code point (`step`), and what a text gives
depends on the text before it by the mode in which that ends (`feed`).
-/

namespace Predictive

namespace Dot

/-! ## Tokens -/

inductive Token where
  | bare (t : Text)
  | quoted (t : Text)
  | arrow
  | openBrace
  | closeBrace
  | openBracket
  | closeBracket
  | equals
deriving DecidableEq

/-- What was begun and may go on: nothing, an arrow or a numeral after a
dash, a comment after a slash, a comment, or a bare or quoted text, read
backwards. -/
inductive Mode where
  | between
  | dash
  | slash
  | comment
  | bare (begun : Text)
  | quoted (begun : Text)
deriving DecidableEq

/-- What bare identifiers are made of, but for the minus of a numeral. -/
def isBareChar (c : CodePoint) : Bool := isNameStart c || Text.isDigit c || c == .char '.'

/-- What a code point begins where nothing else was begun. -/
def start (c : CodePoint) : Option (List Token × Mode) :=
  if isBareChar c then some ([], .bare [c])
  else if Text.isBlank c then some ([], .between)
  else match c with
    | .char '"' => some ([], .quoted [])
    | .char '-' => some ([], .dash)
    | .char '/' => some ([], .slash)
    | .char '\x7b' => some ([.openBrace], .between)
    | .char '\x7d' => some ([.closeBrace], .between)
    | .char '[' => some ([.openBracket], .between)
    | .char ']' => some ([.closeBracket], .between)
    | .char '=' => some ([.equals], .between)
    | _ => none

/-- The tokens that a code point completes, and what it leaves begun;
`none` where it cannot stand. -/
def step : Mode → CodePoint → Option (List Token × Mode)
  | .between, c => start c
  | .dash, c =>
    if c = .char '>' then some ([.arrow], .between)
    else if Text.isDigit c || c == .char '.' then some ([], .bare [c, .char '-'])
    else none
  | .slash, c => if c = .char '/' then some ([], .comment) else none
  | .comment, c => some ([], if c = .char '\n' then .between else .comment)
  | .bare begun, c =>
    if isBareChar c then some ([], .bare (c :: begun))
    else (start c).map fun r => (.bare begun.reverse :: r.1, r.2)
  | .quoted begun, c =>
    if c = .char '"' then
      match begun with
      | .char '\\' :: before => some ([], .quoted (.char '"' :: before))
      | _ => some ([.quoted begun.reverse], .between)
    else some ([], .quoted (c :: begun))

/-- Tokens before those that are read next. -/
def behind (tokens : List Token) (r : List Token × Mode) : List Token × Mode :=
  (tokens ++ r.1, r.2)

/-- The tokens of a text that stands where `mode` was begun, and what it
leaves begun. -/
def feed (mode : Mode) : Text → Option (List Token × Mode)
  | [] => some ([], mode)
  | c :: rest => (step mode c).bind fun r => (feed r.2 rest).map (behind r.1)

/-- The tokens of a whole text, after which nothing is left begun. -/
def tokens? (t : Text) : Option (List Token) :=
  match feed .between t with
  | some (tokens, .between) => some tokens
  | _ => none

/-! ## Statements -/

inductive Statement where
  | node (id : Text) (attributes : List (Text × Text))
  | edge (tail head : Text)
deriving DecidableEq

def Token.id? : Token → Option Text
  | .bare t =>
    if isNumeral t || (isName t && !words.contains (Text.lowercase t)) then some t else none
  | .quoted t => some t
  | _ => none

mutual
/-- The statements of a graph up to its closing brace, behind which
nothing stands. -/
def statements : List Token → Option (List Statement)
  | [.closeBrace] => some []
  | tail :: .arrow :: head :: rest => do
    let statement := .edge (← tail.id?) (← head.id?)
    return statement :: (← statements rest)
  | node :: .openBracket :: rest => do attributes (← node.id?) [] rest
  | _ => none

/-- The statements from the attributes of a node on, of which some were
read, the last one first. -/
def attributes (id : Text) (before : List (Text × Text)) : List Token → Option (List Statement)
  | .closeBracket :: rest => do return .node id before.reverse :: (← statements rest)
  | name :: .equals :: value :: rest => do
    attributes id ((← name.id?, ← value.id?) :: before) rest
  | _ => none
end

/-- The statements of a text, when it is a directed graph. -/
def read (t : Text) : Option (List Statement) :=
  match tokens? t with
  | some (.bare word :: .openBrace :: rest) =>
    if Text.lowercase word = ("digraph" : Text) then statements rest else none
  | _ => none

/-- The node that a statement is about, with all labels that it gets. -/
def Statement.node? : Statement → Option (Text × List Text)
  | .node id attributes =>
    some (id, (attributes.filter (·.1 = ("label" : Text))).map Prod.snd)
  | .edge _ _ => none

def Statement.edge? : Statement → Option (Text × Text)
  | .node _ _ => none
  | .edge tail head => some (tail, head)

end Dot

end Predictive
