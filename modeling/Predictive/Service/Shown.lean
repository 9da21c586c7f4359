import Predictive.Conflict.Record
import Predictive.Json.Value
import Predictive.Session
import Predictive.Table.Listing
import Predictive.Tree.Dot
import Predictive.Tree.Flat

/-!
# What answers show

The analysis of a grammar and the answer to an input as JSON values.
-/

namespace Predictive

namespace Service

def symbolsJson (l : List Symbol) : JsonValue := .texts (l.map Symbol.text)

/-- A map of sets as an object, each set in the order in which it is
displayed. -/
def setsJson (m : SetMap) : JsonValue :=
  .object (m.entries.map fun (A, S) => (A.text, symbolsJson S.display))

def rulesJson (g : Grammar) : JsonValue :=
  .object (g.rules.entries.map fun (A, bodies) => (A.text, .texts (bodies.map spell)))

def tableJson (t : ParsingTable) : JsonValue :=
  .object (t.listing.entries.map fun (place, body) => (place, .string body))

def conflictJson (c : Conflict) : JsonValue :=
  let r := c.record
  .object [("kind", .string r.kind), ("nonterminal", .string r.nonterminal.text),
    ("productions", .texts (r.productions.map Production.text)),
    ("terminals", symbolsJson r.terminals), ("message", .string c.message)]

def studyJson (s : Study) : JsonValue :=
  .object [("S", .string s.grammar.start.text), ("Vn", symbolsJson s.grammar.nonterminals),
    ("Vt", symbolsJson s.grammar.terminals), ("formulas_dict", rulesJson s.grammar),
    ("first", setsJson s.first.sets), ("follow", setsJson s.follow.sets),
    ("table", tableJson s.table), ("isLL1", .bool s.isLL1),
    ("conflicts", .array (s.conflicts.map conflictJson))]

def nodeJson (n : FlatNode) : JsonValue :=
  .object [("id", .ofNat n.id), ("symbol", .string n.symbol.text),
    ("is_terminal", .bool n.isTerminal), ("children", .array (n.children.map .ofNat))]

def treeJson (t : Tree) : JsonValue :=
  .object [("root", .ofNat 0), ("nodes", .array (t.flat.map nodeJson))]

/-- The columns and the verdict of an answer. -/
def answerMembers (t : AnswerTable) : List (Text × JsonValue) :=
  [("info_step", .array (t.numberColumn.map .ofNat)), ("info_stack", .texts t.stackColumn),
    ("info_str", .texts t.inputColumn), ("info_msg", .texts t.actionColumn),
    ("info_res", .string t.verdict)]

/-- The outcome of an answer; without a run, nothing was accepted. -/
def outcomeMembers (r : Option Report) : List (Text × JsonValue) :=
  let tree := r.bind Report.tree
  [("accepted", .bool (r.any Report.accepted)), ("reason", .ofText? (r.bind Report.reason)),
    ("position", ((r.map Report.position).map JsonValue.ofNat).getD .null),
    ("tree", (tree.map treeJson).getD .null),
    ("tree_dot_str", .string ((tree.map Tree.dot).getD []))]

def answerJson (a : Answer) : JsonValue :=
  .object ((a.table?.map answerMembers).getD [] ++ outcomeMembers a.report?)

end Service

end Predictive
