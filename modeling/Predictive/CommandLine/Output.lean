import Predictive.Text.Encoder

/-!
# Output of programs

What a program prints, print by print, on its two streams. Outputs follow
each other (`++`), and what was printed on one stream is the text of its
prints (`out`, `err`).

A terminal encodes what comes out on it (`Output.delivered`). The first
result that it cannot encode fails as a whole, and what was printed
before it stands. A message never fails, since what cannot be encoded is
written as an escape there.
-/

namespace Predictive

inductive Stream where
  | results
  | messages
deriving DecidableEq

/-- What is printed at once. -/
structure Print where
  stream : Stream
  text : Text
deriving DecidableEq

namespace Print

/-- Why a print fails on a terminal, when it does. -/
def refusal? (terminal : Encoder) (p : Print) : Option EncodingError :=
  match p.stream with
  | .results => terminal.refusal? p.text
  | .messages => none

/-- What comes out of a print that does not fail. -/
def delivered (terminal : Encoder) (p : Print) : Print :=
  match p.stream with
  | .results => p
  | .messages => ⟨.messages, terminal.escaped p.text⟩

end Print

/-- What was printed, in order. -/
structure Output where
  prints : List Print
deriving DecidableEq

namespace Output

def nothing : Output := ⟨[]⟩

def result (t : Text) : Output := ⟨[⟨.results, t⟩]⟩

def message (t : Text) : Output := ⟨[⟨.messages, t⟩]⟩

/-- Lines on the stream for results, each printed by itself. -/
def lines (rows : List Text) : Output := ⟨rows.map fun row => ⟨.results, row ++ "\n"⟩⟩

/-- Lines on the stream for messages. -/
def errorLines (rows : List Text) : Output := ⟨rows.map fun row => ⟨.messages, row ++ "\n"⟩⟩

instance : Append Output := ⟨fun a b => ⟨a.prints ++ b.prints⟩⟩

theorem append_assoc (a b c : Output) : a ++ b ++ c = a ++ (b ++ c) :=
  congrArg Output.mk (List.append_assoc a.prints b.prints c.prints)

@[simp] theorem append_nothing (a : Output) : a ++ nothing = a :=
  congrArg Output.mk (List.append_nil a.prints)

/-! ## Streams -/

/-- What was printed on one stream. -/
def on (o : Output) (stream : Stream) : Text :=
  (o.prints.filter (·.stream = stream)).flatMap Print.text

def out (o : Output) : Text := o.on .results

def err (o : Output) : Text := o.on .messages

theorem on_append (a b : Output) (stream : Stream) :
    (a ++ b).on stream = a.on stream ++ b.on stream := by
  show (List.filter _ (a.prints ++ b.prints)).flatMap _ = _
  rw [List.filter_append, List.flatMap_append]
  rfl

@[simp] theorem out_append (a b : Output) : (a ++ b).out = a.out ++ b.out := on_append ..

@[simp] theorem out_lines (rows : List Text) : (lines rows).out = Text.unlines rows := by
  rw [out, on, lines, List.filter_eq_self.2 (by simp), List.flatMap_map]
  rfl

@[simp] theorem out_errorLines (rows : List Text) : (errorLines rows).out = [] := by
  rw [out, on, errorLines, List.filter_eq_nil_iff.2 (by simp)]
  rfl

/-! ## Terminals -/

/-- The refusal of the first print that fails on a terminal. -/
def refusal? (terminal : Encoder) (o : Output) : Option EncodingError :=
  o.prints.findSome? (Print.refusal? terminal)

/-- What comes out on a terminal: the prints before the first that
fails. -/
def delivered (terminal : Encoder) (o : Output) : Output :=
  ⟨(o.prints.takeWhile fun p => (p.refusal? terminal).isNone).map (Print.delivered terminal)⟩

end Output

end Predictive
