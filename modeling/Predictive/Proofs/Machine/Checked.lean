import Predictive.Proofs.Machine.Run

/-!
# The machine with its accesses checked

The machine reads its input by position and keeps, beside its stack of
symbols, a stack with the node of the tree that each of them stands
for; the bottom of the stack stands for none. Reading behind the end of
the input, taking a node off an empty stack and using the node of the
bottom are three things that must not happen, and nothing in these
definitions prevents them: each is a `Fault`.

None of them happens, whatever the table (`Frame.run_eq`). The bottom of
the stack is the end marker, which is never taken off, so above it there
is a node for each symbol; and what is consumed is never the end marker,
so the position stays on the input. Both are kept by a step because the
machine follows the one that holds its unread input as a list
(`Follows.step`), and for as many steps as that one makes.
-/

namespace Predictive

/-- What must not happen in a step. -/
inductive Fault where
  /-- The input is read behind its end. -/
  | behindInput
  /-- A node is taken from an empty stack of nodes. -/
  | noNode
  /-- The bottom of the stack is used as a node. -/
  | bottomUsed
deriving DecidableEq

/-- A machine between two steps: its input with the end marker, how far
it has read, its stack, and the nodes that the stack stands for. -/
structure Frame where
  input : List Symbol
  position : Nat
  stack : List Symbol
  nodes : List (Option Symbol)

namespace Frame

/-- The machine before its first step. -/
def initial (start : Symbol) (input : List Symbol) : Frame :=
  ⟨input ++ [.endMarker], 0, [start, .endMarker], [some start, none]⟩

/-- The next symbol of the input. -/
def read (f : Frame) : Except Fault Symbol :=
  match f.input[f.position]? with
  | some a => .ok a
  | none => .error .behindInput

/-- The nodes that are left when the one on top was used. -/
def useNode (f : Frame) : Except Fault (List (Option Symbol)) :=
  match f.nodes with
  | some _ :: nodes => .ok nodes
  | none :: _ => .error .bottomUsed
  | [] => .error .noNode

/-- One step with `top` on the stack: its action and, unless that ends
the run, the machine after it. -/
def step (t : ParsingTable) (f : Frame) (top : Symbol) (rest : List Symbol) :
    Except Fault (Action × Option Frame) := do
  let a ← f.read
  if top = .endMarker ∧ a = .endMarker ∧ f.position + 1 = f.input.length then
    return (.accept, none)
  else if top ≠ .endMarker ∧ top.isNonterminal = false then
    if top = a then
      let nodes ← f.useNode
      return (.consume a, some ⟨f.input, f.position + 1, rest, nodes⟩)
    else return (.reject (.unexpectedTerminal top a), none)
  else
    match if top.isNonterminal then t.get? top a else none with
    | some p =>
      let nodes ← f.useNode
      return (.expand p,
        some ⟨f.input, f.position, p.expansion ++ rest, p.expansion.map some ++ nodes⟩)
    | none => return (.reject (.noTableEntry top a), none)

/-- The trace of at most `n` steps. -/
def run (t : ParsingTable) : Nat → Frame → Except Fault (List Step)
  | 0, _ => .ok []
  | n + 1, f =>
    match f.stack with
    | [] => .ok []
    | top :: rest => do
      let (action, next) ← f.step t top rest
      let row : Step := ⟨f.stack, (f.input.drop f.position).dropLast, action⟩
      match next with
      | none => return [row]
      | some f' => return row :: (← f'.run t n)

end Frame

/-- A machine that ends with something on its stack shows one more
row. -/
theorem Config.steps_run_of_ended {t : ParsingTable} {c : Config} {top : Symbol}
    {rest : List Symbol} (hstack : c.stack = top :: rest) (hend : c.next? t = none) (n : Nat) :
    (c.run t (n + 1)).steps = [c.shown t] := by
  rw [next?, act_cons hstack] at hend
  rw [run, shown, act_cons hstack]
  simp only [hstack]
  cases hact : c.actOn t top with
  | accept => rfl
  | reject why => rfl
  | consume s => simp [hact] at hend
  | expand p => simp [hact] at hend

/-! ## Following the machine -/

/-- The machine is where the one without positions and nodes is: the
same stack, on a bottom that alone has no node, and the same symbols to
read, behind which the end marker stands. -/
structure Follows (c : Config) (f : Frame) : Prop where
  stack : f.stack = c.stack
  unread : f.input.drop f.position = c.unread ++ [.endMarker]
  nodes : ∃ σ, c.stack = σ ++ [.endMarker] ∧ f.nodes = σ.map some ++ [none]

namespace Follows

variable {t : ParsingTable} {c : Config} {f : Frame} {top : Symbol} {rest : List Symbol}

theorem initial (start : Symbol) (input : List Symbol) :
    Follows (.initial start input) (.initial start input) :=
  ⟨rfl, rfl, [start], rfl, rfl⟩

theorem read (h : Follows c f) : f.read = .ok c.lookahead := by
  have hget : f.input[f.position]? = (c.unread ++ [.endMarker])[0]? := by
    rw [← h.unread, List.getElem?_drop, Nat.add_zero]
  rw [Frame.read, hget, Config.lookahead]
  cases c.unread <;> rfl

theorem at_end_iff (h : Follows c f) : f.position + 1 = f.input.length ↔ c.unread = [] := by
  have hlength := congrArg List.length h.unread
  rw [List.length_drop, List.length_append, List.length_singleton] at hlength
  rw [← List.length_eq_zero_iff]
  omega

theorem accepts_iff (h : Follows c f) :
    (top = .endMarker ∧ c.lookahead = .endMarker ∧ f.position + 1 = f.input.length) ↔
      top = .endMarker ∧ c.unread = [] := by
  rw [h.at_end_iff, Config.lookahead]
  refine and_congr_right fun _ => ⟨fun hend => hend.2, fun hend => ⟨?_, hend⟩⟩
  rw [hend, List.headD_nil]

theorem useNode (h : Follows c f) (hstack : c.stack = top :: rest) (htop : top ≠ .endMarker) :
    ∃ σ, rest = σ ++ [.endMarker] ∧ f.useNode = .ok (σ.map some ++ [none]) := by
  obtain ⟨σ, hσ, hnodes⟩ := h.nodes
  rw [hstack] at hσ
  cases σ with
  | nil => exact absurd (List.cons.inj hσ).1 htop
  | cons A σ =>
    obtain ⟨rfl, hrest⟩ := List.cons.inj hσ
    exact ⟨σ, hrest, by rw [Frame.useNode, hnodes]; rfl⟩

/-- A step has no fault, and leads to where the other machine goes. -/
theorem step (h : Follows c f) (hstack : c.stack = top :: rest) :
    (c.next? t = none ∧ f.step t top rest = .ok (c.act t, none)) ∨
      ∃ c' f', c.next? t = some c' ∧ f.step t top rest = .ok (c.act t, some f') ∧
        Follows c' f' := by
  -- both machines branch on the same conditions, which `hact` and the goal carry along
  have hact := Config.act_cons (t := t) hstack
  rw [Config.actOn, Config.production?] at hact
  simp only [Frame.step, h.read, bind, Except.bind, h.accepts_iff]
  by_cases hend : top = .endMarker ∧ c.unread = []
  · rw [if_pos hend] at hact ⊢
    rw [hact]
    exact Or.inl ⟨Config.next?_of_accept hact, rfl⟩
  rw [if_neg hend] at hact ⊢
  by_cases hterm : top ≠ .endMarker ∧ top.isNonterminal = false
  · rw [if_pos hterm] at hact ⊢
    by_cases hlook : top = c.lookahead
    · obtain ⟨unread, hunread⟩ := Config.exists_unread hterm.1 hlook
      obtain ⟨σ, hrest, hnode⟩ := h.useNode hstack hterm.1
      rw [if_pos hlook] at hact ⊢
      rw [hact, hnode, ← hlook]
      refine Or.inr ⟨_, _, Config.next?_consume hstack hunread hterm.1 hterm.2, rfl, rfl, ?_, σ,
        hrest, rfl⟩
      have hdrop := congrArg List.tail h.unread
      rwa [List.tail_drop, hunread] at hdrop
    · rw [if_neg hlook] at hact ⊢
      rw [hact]
      exact Or.inl ⟨by rw [Config.next?, hact], rfl⟩
  · rw [if_neg hterm] at hact ⊢
    cases hp : (if top.isNonterminal then t.get? top c.lookahead else none) with
    | none =>
      simp only [hp] at hact
      rw [hact]
      exact Or.inl ⟨by rw [Config.next?, hact], rfl⟩
    | some p =>
      simp only [hp] at hact
      obtain ⟨hn, hget⟩ : top.isNonterminal ∧ t.get? top c.lookahead = some p := by
        split at hp
        · next hn => exact ⟨hn, hp⟩
        · cases hp
      have htop : top ≠ .endMarker := by
        rintro rfl
        rw [Symbol.isNonterminal_endMarker] at hn
        cases hn
      obtain ⟨σ, hrest, hnode⟩ := h.useNode hstack htop
      rw [hact, hnode]
      refine Or.inr ⟨_, _, Config.next?_expand hstack hn hget, rfl, rfl, h.unread,
        p.expansion ++ σ, ?_, ?_⟩
      · rw [hrest, List.append_assoc]
      · rw [List.map_append, List.append_assoc]

end Follows

theorem Frame.run_eq {t : ParsingTable} {c : Config} {f : Frame} (h : Follows c f) (n : Nat) :
    f.run t n = .ok (c.run t n).steps := by
  induction n generalizing c f with
  | zero => rfl
  | succ n ih =>
    rw [run, h.stack]
    cases hstack : c.stack with
    | nil =>
      rw [Config.run]
      simp only [hstack]
    | cons top rest =>
      have hrow : (⟨top :: rest, (f.input.drop f.position).dropLast, c.act t⟩ : Step) =
          c.shown t := by
        rw [h.unread, List.dropLast_concat, Config.shown, hstack]
      rcases h.step (t := t) hstack with ⟨hend, hstep⟩ | ⟨c', f', hnext, hstep, hfollows⟩
      · simp only [hstep, hrow, bind, Except.bind, Config.steps_run_of_ended hstack hend]
        rfl
      · simp only [hstep, hrow, bind, Except.bind, ih hfollows, Config.run_succ_of_next hnext]
        rfl

end Predictive
