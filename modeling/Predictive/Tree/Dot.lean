import Predictive.Text.Digits
import Predictive.Tree.Basic

/-!
# Trees as DOT graphs

A tree as the source of a directed graph in the DOT language: for each
node, in preorder, a statement with its number, its symbol as label and
the look of its kind, and for each node but the root a statement for
the edge from its parent.

A label that is a name, but no word of the language, or a numeral stands
bare, and so does one in angle brackets; any other stands between double
quotes, inside which a double quote is written behind a backslash, if it
does not stand behind one yet, and nothing else is changed. A label of a
single line end is quoted, although a bare one may have it at its end.
-/

namespace Predictive

namespace Dot

/-! ## Labels -/

def isNameStart (c : CodePoint) : Bool := Text.isLetter c || c == .char '_'

/-- A letter of ASCII or a low line, followed by such characters and
digits. -/
def isName : Text → Bool
  | [] => false
  | c :: rest => isNameStart c && rest.all fun c => isNameStart c || Text.isDigit c

/-- Digits with at most one point among them, a minus before them being
allowed. -/
def isNumeral (t : Text) : Bool :=
  let unsigned := match t with
    | .char '-' :: rest => rest
    | _ => t
  let whole := unsigned.takeWhile Text.isDigit
  match unsigned.dropWhile Text.isDigit with
  | [] => !whole.isEmpty
  | .char '.' :: fraction => fraction.all Text.isDigit && !(whole.isEmpty && fraction.isEmpty)
  | _ => false

def dropLineEnd (t : Text) : Text :=
  match t.reverse with
  | .char '\n' :: rest => rest.reverse
  | _ => t

def isBracketed (t : Text) : Bool :=
  match t with
  | .char '<' :: rest => rest.getLast? == some (.char '>')
  | _ => false

/-- The words of the language. -/
def words : List Text := ["node", "edge", "graph", "digraph", "subgraph", "strict"]

/-- A label that needs no quotes. -/
def isBare (t : Text) : Bool :=
  let body := dropLineEnd t
  isBracketed body || isNumeral body || (isName body && !words.contains (Text.lowercase t))

/-- A text inside double quotes; `isEscaped` says that a backslash before
it counts for its first code point. -/
def quotable (isEscaped : Bool) : Text → Text
  | [] => []
  | c :: rest =>
    if c = '"' ∧ !isEscaped then '\\' :: '"' :: quotable false rest
    else c :: quotable (c = '\\' && !isEscaped) rest

/-- A label as it stands in a statement. -/
def label (t : Text) : Text := if isBare t then t else "\"" ++ quotable false t ++ "\""

/-! ## Statements -/

def nodeLine (v : Tree.Visit) : Text :=
  let look : Text :=
    if v.node.isTerminal then " fillcolor=lightpink fontname=Verdana shape=box style=filled]"
    else " fillcolor=lightblue fontname=Verdana shape=ellipse style=filled]"
  "\t" ++ Text.ofNat v.number ++ " [label=" ++ label v.node.symbol.text ++ look

/-- The statement of the edge to a node from its parent. -/
def edgeLine (v : Tree.Visit) : List Text :=
  match v.parent with
  | none => []
  | some parent => ["\t" ++ Text.ofNat parent.number ++ " -> " ++ Text.ofNat v.number]

def lines (visits : List Tree.Visit) : List Text :=
  let statements := visits.flatMap fun v => nodeLine v :: edgeLine v
  ("// LL1_parse_tree" : Text) :: ("digraph \x7b" : Text) :: statements ++ [("\x7d" : Text)]

end Dot

def Tree.dot (t : Tree) : Text := Text.unlines (Dot.lines t.walk)

end Predictive
