import Predictive.Table.Basic
import Predictive.Tree.Basic

/-!
# The predictive machine

A stack of symbols is driven over an input by a parsing table. A
terminal on top must be the next symbol of the input and is consumed
with it; a nonterminal is replaced by the right-hand side of the
production in its cell; the end marker on top at the end of the input
accepts. Anything else rejects.

One configuration and one step are explicit, so the machine can be
reasoned about for any table: `act` chooses the action, `after` carries
it out, and `run` repeats the two and records every step. The machine
keeps the moves it made; `tree` grows the parse tree back from them,
the symbols still on the stack being its open leaves, so there is a
tree at every moment and not only at the end.

The end marker that closes the input is not stored with it: the unread
symbols are those of the text, and past the last of them the machine
sees the end marker.
-/

namespace Predictive

/-! ## Actions -/

/-- Why a machine rejects its input. -/
inductive Rejection where
  | unexpectedTerminal (top lookahead : Symbol)
  | noTableEntry (top lookahead : Symbol)
  | stackExhausted
deriving DecidableEq

inductive Action where
  | accept
  /-- Takes the top off the stack and the same symbol off the input. -/
  | consume (s : Symbol)
  /-- Replaces the top by the right-hand side of a production. -/
  | expand (p : Production)
  | reject (why : Rejection)
deriving DecidableEq

/-- A move that was made, with the symbol that stood on top. -/
inductive Move where
  | consume (s : Symbol)
  | expand (top : Symbol) (p : Production)
deriving DecidableEq

/-! ## Configurations -/

/-- What a machine knows between steps. -/
structure Config where
  /-- The stack, its top first. -/
  stack : List Symbol
  /-- How many symbols of the input were consumed. -/
  position : Nat
  /-- The symbols of the input that were not. -/
  unread : List Symbol
  /-- The moves made so far, the latest first. -/
  moves : List Move
deriving DecidableEq

namespace Config

/-- The machine before its first step: the start symbol on the end
marker. -/
def initial (start : Symbol) (input : List Symbol) : Config :=
  ⟨[start, .endMarker], 0, input, []⟩

/-- The next symbol of the input, at its end the end marker. -/
def lookahead (c : Config) : Symbol := c.unread.headD .endMarker

/-- The production in the cell of the top and the next symbol, for a
nonterminal. -/
def production? (t : ParsingTable) (c : Config) (top : Symbol) : Option Production :=
  if top.isNonterminal then t.get? top c.lookahead else none

def actOn (t : ParsingTable) (c : Config) (top : Symbol) : Action :=
  if top = .endMarker ∧ c.unread = [] then .accept
  else if top ≠ .endMarker ∧ top.isNonterminal = false then
    if top = c.lookahead then .consume top else .reject (.unexpectedTerminal top c.lookahead)
  else match c.production? t top with
    | some p => .expand p
    | none => .reject (.noTableEntry top c.lookahead)

def act (t : ParsingTable) (c : Config) : Action :=
  match c.stack with
  | [] => .reject .stackExhausted
  | top :: _ => c.actOn t top

/-- The machine after an action; accepting and rejecting change
nothing. -/
def after (c : Config) : Action → Config
  | .consume s => ⟨c.stack.tail, c.position + 1, c.unread.tail, .consume s :: c.moves⟩
  | .expand p =>
    ⟨p.expansion ++ c.stack.tail, c.position, c.unread,
      .expand (c.stack.headD .endMarker) p :: c.moves⟩
  | .accept => c
  | .reject _ => c

/-- One step that does not end the run. -/
def next? (t : ParsingTable) (c : Config) : Option Config :=
  match c.act t with
  | .consume s => some (c.after (.consume s))
  | .expand p => some (c.after (.expand p))
  | .accept => none
  | .reject _ => none

end Config

/-! ## The tree -/

/-- The trees before a move, given those after it: a consumed symbol is
a matched leaf, and an expanded one takes the trees of its right-hand
side for its children. -/
def Move.regrow : Move → List Tree → List Tree
  | .consume s, forest => .matched s :: forest
  | .expand top p, forest =>
    if p.isEpsilon then .node top false [.matched .epsilon] :: forest
    else .node top false (forest.take p.rhs.length) :: forest.drop p.rhs.length

namespace Config

/-- The trees of the symbols that stood on the stack at the beginning,
above its bottom. -/
def forest (c : Config) : List Tree :=
  c.moves.foldl (fun forest move => move.regrow forest) (c.stack.dropLast.map .bare)

/-- The parse tree as far as it has grown. -/
def tree (c : Config) : Tree := c.forest.headD default

end Config

/-! ## Runs -/

/-- A step of a run, as the trace shows it: the stack and the unread
input before the action. -/
structure Step where
  stack : List Symbol
  unread : List Symbol
  action : Action
deriving DecidableEq

inductive Ending where
  | accepted
  | rejected (why : Rejection)
  /-- The steps allowed were used up. -/
  | unfinished
deriving DecidableEq

/-- A run: its steps, the configuration in which it ended, and how. -/
structure Run where
  steps : List Step
  last : Config
  ending : Ending
deriving DecidableEq

namespace Run

def isAccepted (r : Run) : Bool := r.ending == .accepted

/-- The run that starts one step earlier. -/
def cons (s : Step) (r : Run) : Run := { r with steps := s :: r.steps }

def tree? (r : Run) : Option Tree := if r.isAccepted then some r.last.tree else none

end Run

/-- Steps until the machine accepts or rejects, at most `allowance` of
them. -/
def Config.run (t : ParsingTable) : Nat → Config → Run
  | 0, c => ⟨[], c, .unfinished⟩
  | allowance + 1, c =>
    match c.stack with
    | [] => ⟨[], c, .rejected .stackExhausted⟩
    | top :: _ =>
      let step (a : Action) : Step := ⟨c.stack, c.unread, a⟩
      match c.actOn t top with
      | .accept => ⟨[step .accept], c, .accepted⟩
      | .reject why => ⟨[step (.reject why)], c, .rejected why⟩
      | .consume s => (run t allowance (c.after (.consume s))).cons (step (.consume s))
      | .expand p => (run t allowance (c.after (.expand p))).cons (step (.expand p))

/-! ## Parsing -/

namespace ParsingTable

/-- The length of the longest right-hand side in a table, at least
1. -/
def width (t : ParsingTable) : Nat := (t.entries.map fun (_, p) => p.rhs.length).foldl max 1

/-- More steps than any run over `n` symbols makes that ends at all.
Between two symbols consumed, no nonterminal is expanded below itself,
or the run would go on for ever; so each symbol on the stack causes at
most `(w + 1) ^ r` expansions, with `w` the width of the table and `r`
at least its number of rows, and each symbol consumed leaves at most
`r * w` more symbols on the stack. -/
def allowance (t : ParsingTable) (n : Nat) : Nat :=
  let r := t.rows.length + t.size
  let w := t.width
  (n + 2) * (2 + (n + 1) * r * w) * Nat.pow (w + 1) (r + 1)

/-- The run over a text, whose blanks are ignored, from a start
symbol. -/
def parse (t : ParsingTable) (start : Symbol) (text : Text) : Run :=
  let input := symbolsOf (Text.unblank text)
  (Config.initial start input).run t (t.allowance input.length)

end ParsingTable

end Predictive
