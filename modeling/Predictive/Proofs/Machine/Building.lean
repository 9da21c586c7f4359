import Mathlib.Logic.Relation
import Predictive.Machine.Report
import Predictive.Proofs.Machine.Allowance
import Predictive.Proofs.Machine.Checked
import Predictive.Proofs.Machine.Store

/-!
# The machine that builds its tree

The machine can build the tree while it runs: beside its stack of
symbols it keeps a stack of nodes, and when it takes a symbol off it
marks the node of the symbol as matched or gives it children. The rows
of the trace are numbered as they are written, and a run returns an
`Outcome` that says how many there are.

Nothing is assumed of the table: a right-hand side may be empty, hold
the end marker, or hold ε among other symbols. What a step preserves
(`Builds.step`) is that the bottom of the stack is the end marker with no
node and that above it there is an unused node for each symbol; so it is
never the bottom that is taken off, nothing in a step can go wrong
(`Builder.Safe`), and the stack is never empty. A machine that builds is
where `Config` is after the same moves, so it returns what the run of
that machine tells, with its tree (`Outcome.IsOf`).
-/

namespace Predictive

/-- A machine between two steps. Its input is kept beside it, with the
end marker. -/
structure Builder where
  position : Nat
  stack : List Symbol
  /-- The places of the nodes that the stack stands for. -/
  nodes : List (Option Nat)
  made : Store
  /-- The trace so far, its rows with their numbers. -/
  rows : List (Nat × Step)
deriving DecidableEq

/-- What a run returns, and the store in which its tree stands. -/
structure Outcome where
  ending : Ending
  step : Nat
  position : Nat
  made : Store
  rows : List (Nat × Step)
deriving DecidableEq

inductive Turn where
  | goesOn (b : Builder)
  | returns (o : Outcome)
deriving DecidableEq

namespace Builder

/-- The machine before its first step. The root stands at place 0. -/
def initial (start : Symbol) : Builder :=
  ⟨0, [start, .endMarker], [some 0, none], [.bare start], []⟩

def read (input : List Symbol) (b : Builder) : Except Fault Symbol :=
  match input[b.position]? with
  | some a => .ok a
  | none => .error .behindInput

def takeNode (b : Builder) : Except Fault (Nat × List (Option Nat)) :=
  match b.nodes with
  | some i :: nodes => .ok (i, nodes)
  | none :: _ => .error .bottomUsed
  | [] => .error .noNode

def choose (t : ParsingTable) (input : List Symbol) (b : Builder) (top a : Symbol) : Action :=
  if top = .endMarker ∧ a = .endMarker ∧ b.position + 1 = input.length then .accept
  else if top ≠ .endMarker ∧ top.isNonterminal = false then
    if top = a then .consume top else .reject (.unexpectedTerminal top a)
  else
    match if top.isNonterminal then t.get? top a else none with
    | some p => .expand p
    | none => .reject (.noTableEntry top a)

def record (input : List Symbol) (b : Builder) (a : Action) : List (Nat × Step) :=
  b.rows ++ [(b.rows.length + 1, ⟨b.stack, (input.drop b.position).dropLast, a⟩)]

/-- Carries out an action that was recorded, with `rest` below the top of
the stack. -/
def carryOut (b : Builder) (rest : List Symbol) (rows : List (Nat × Step)) :
    Action → Except Fault Turn
  | .accept => return .returns ⟨.accepted, b.rows.length + 1, b.position, b.made, rows⟩
  | .reject why => return .returns ⟨.rejected why, rows.length, b.position, b.made, rows⟩
  | .consume _ => do
    let (i, nodes) ← b.takeNode
    return .goesOn ⟨b.position + 1, rest, nodes, b.made.modify i .mark, rows⟩
  | .expand p => do
    let (i, nodes) ← b.takeNode
    return .goesOn ⟨b.position, p.expansion ++ rest, (b.made.opened p).map some ++ nodes,
      b.made.expandAt i p, rows⟩

def step (t : ParsingTable) (input : List Symbol) (b : Builder) : Except Fault Turn :=
  match b.stack with
  | [] => .ok (.returns ⟨.rejected .stackExhausted, b.rows.length, b.position, b.made, b.rows⟩)
  | top :: rest => do
    let a ← b.read input
    let action := b.choose t input top a
    b.carryOut rest (b.record input action) action

def GoesTo (t : ParsingTable) (input : List Symbol) (b b' : Builder) : Prop :=
  b.step t input = .ok (.goesOn b')

/-- The machine comes to `b` from the start symbol. -/
def Reachable (t : ParsingTable) (start : Symbol) (input : List Symbol) (b : Builder) : Prop :=
  Relation.ReflTransGen (GoesTo t input) (initial start) b

/-- The run from the start symbol returns `o`. -/
def Returns (t : ParsingTable) (start : Symbol) (input : List Symbol) (o : Outcome) : Prop :=
  ∃ b, Reachable t start input b ∧ b.step t input = .ok (.returns o)

end Builder

/-! ## One step -/

/-- The machine has come to where `c` is: above the bottom stand the
symbols `σ`, and `places` are those of their nodes. -/
structure Builds (input σ : List Symbol) (places : List Nat) (c : Config) (b : Builder) :
    Prop where
  position : b.position = c.position
  stack : b.stack = c.stack
  bottom : c.stack = σ ++ [.endMarker]
  unread : input.drop b.position = c.unread ++ [.endMarker]
  nodes : b.nodes = places.map some ++ [none]
  tree : Grows b.made σ places c.moves

namespace Builds

variable {t : ParsingTable} {input σ : List Symbol} {places : List Nat} {c : Config} {b : Builder}
  {top : Symbol} {rest : List Symbol}

theorem initial (start : Symbol) (input : List Symbol) :
    Builds (input ++ [.endMarker]) [start] [0] (.initial start input) (.initial start) :=
  ⟨rfl, rfl, rfl, rfl, rfl, .initial start⟩

/-- Apart from its nodes the machine is one with its accesses checked. -/
theorem follows (h : Builds input σ places c b) :
    Follows c ⟨input, b.position, b.stack, σ.map some ++ [none]⟩ :=
  ⟨h.stack, h.unread, σ, h.bottom, rfl⟩

theorem read (h : Builds input σ places c b) : b.read input = .ok c.lookahead := h.follows.read

theorem choose (h : Builds input σ places c b) (top : Symbol) :
    b.choose t input top c.lookahead = c.actOn t top := by
  rw [Builder.choose, Config.actOn]
  exact if_congr h.follows.accepts_iff rfl rfl

theorem record (h : Builds input σ places c b) (hstack : c.stack = top :: rest) :
    b.record input (c.actOn t top) = b.rows ++ [(b.rows.length + 1, c.shown t)] := by
  rw [Builder.record, h.unread, List.dropLast_concat, h.stack, Config.shown,
    Config.act_cons hstack]

theorem exists_top (h : Builds input σ places c b) : ∃ top rest, c.stack = top :: rest := by
  rw [h.bottom]
  cases σ with
  | nil => exact ⟨_, _, rfl⟩
  | cons top σ => exact ⟨top, σ ++ [.endMarker], rfl⟩

theorem step_eq (h : Builds input σ places c b) (hstack : c.stack = top :: rest) :
    b.step t input =
      b.carryOut rest (b.rows ++ [(b.rows.length + 1, c.shown t)]) (c.actOn t top) := by
  rw [Builder.step, h.stack, hstack]
  simp only [h.read, bind, Except.bind, h.choose, h.record hstack]

theorem takeNode (h : Builds input σ places c b) (hstack : c.stack = top :: rest)
    (htop : top ≠ .endMarker) :
    ∃ σ' i places', σ = top :: σ' ∧ rest = σ' ++ [.endMarker] ∧ places = i :: places' ∧
      b.takeNode = .ok (i, places'.map some ++ [none]) := by
  have hσ := h.bottom
  rw [hstack] at hσ
  cases σ with
  | nil => exact absurd (List.cons.inj hσ).1 htop
  | cons A σ' =>
    obtain ⟨rfl, hrest⟩ := List.cons.inj hσ
    cases places with
    | nil => cases h.tree.unused
    | cons i places' =>
      refine ⟨σ', i, places', rfl, hrest, rfl, ?_⟩
      rw [Builder.takeNode, h.nodes]
      rfl

/-- A step does not fail. It returns where the other machine stops, and
goes on where that one does, with what was below the top still at the
bottom. -/
theorem step (h : Builds input σ places c b) (t : ParsingTable) :
    (c.next? t = none ∧ b.step t input = .ok (.returns ⟨(c.run t 1).ending, b.rows.length + 1,
      b.position, b.made, b.rows ++ [(b.rows.length + 1, c.shown t)]⟩)) ∨
    ∃ σ' places' c' b', c.next? t = some c' ∧ b.step t input = .ok (.goesOn b') ∧
      Builds input σ' places' c' b' ∧ b'.rows = b.rows ++ [(b.rows.length + 1, c.shown t)] ∧
      σ ≠ [] ∧ b.stack.tail <:+ b'.stack ∧ b.nodes.tail <:+ b'.nodes := by
  obtain ⟨top, rest, hstack⟩ := h.exists_top
  -- the action is that of the other machine, and decides for both
  rw [h.step_eq hstack]
  have hshown := Config.act_cons (t := t) hstack
  cases hact : c.actOn t top with
  | accept =>
    refine Or.inl ⟨by rw [Config.next?, hshown, hact], ?_⟩
    rw [Config.run]
    simp only [hstack, hact]
    rfl
  | reject why =>
    refine Or.inl ⟨by rw [Config.next?, hshown, hact], ?_⟩
    rw [Config.run]
    simp only [hstack, hact]
    rw [Builder.carryOut, List.length_append]
    rfl
  | consume s =>
    -- what is consumed is not the end marker, so it is not the bottom
    obtain ⟨rfl, htop, hn, hlook⟩ := Config.actOn_eq_consume hact
    obtain ⟨unread, hunread⟩ := Config.exists_unread htop hlook
    obtain ⟨σ', i, places', rfl, rfl, rfl, hnode⟩ := h.takeNode hstack htop
    rw [Builder.carryOut, hnode]
    refine Or.inr ⟨σ', places', _, _, Config.next?_consume hstack hunread htop hn, rfl,
      ⟨congrArg Nat.succ h.position, rfl, rfl, ?_, rfl, h.tree.consume⟩, rfl, List.cons_ne_nil _ _,
      ?_, ?_⟩
    · have hdrop := congrArg List.tail h.unread
      rwa [List.tail_drop, hunread] at hdrop
    · rw [h.stack, hstack]
      exact List.suffix_refl _
    · rw [h.nodes]
      exact List.suffix_refl _
  | expand p =>
    obtain ⟨hn, hp⟩ := Config.actOn_eq_expand hact
    have htop : top ≠ .endMarker := by
      rintro rfl
      cases hn
    obtain ⟨σ', i, places', rfl, rfl, rfl, hnode⟩ := h.takeNode hstack htop
    rw [Builder.carryOut, hnode]
    refine Or.inr ⟨p.expansion ++ σ', b.made.opened p ++ places', _, _,
      Config.next?_expand hstack hn hp, rfl,
      ⟨h.position, rfl, (List.append_assoc ..).symm, h.unread, ?_, h.tree.expand p⟩, rfl,
      List.cons_ne_nil _ _, ?_, ?_⟩
    · rw [List.map_append, List.append_assoc]
    · rw [h.stack, hstack]
      exact List.suffix_append _ _
    · rw [h.nodes]
      exact List.suffix_append _ _

theorem of_goesTo (h : Builds input σ places c b) {b' : Builder} (hgo : b.GoesTo t input b') :
    ∃ σ' places' c', c.next? t = some c' ∧ Builds input σ' places' c' b' ∧
      b'.rows = b.rows ++ [(b.rows.length + 1, c.shown t)] ∧
      σ ≠ [] ∧ b.stack.tail <:+ b'.stack ∧ b.nodes.tail <:+ b'.nodes := by
  rcases h.step t with ⟨-, hret⟩ | ⟨σ', places', c', b₁, hnext, hstep, hrest⟩
  · cases hret.symm.trans hgo
  · obtain rfl := Turn.goesOn.inj (Except.ok.inj (hstep.symm.trans hgo))
    exact ⟨σ', places', c', hnext, hrest⟩

theorem standsAt_tree (h : Builds input σ places c b) : c.tree.StandsAt b.made 0 := by
  have hforest : Tree.StandAt b.made c.forest [0] := by
    rw [Config.forest, h.bottom, List.dropLast_concat]
    exact h.tree.grown b.made _ (fun _ _ _ => rfl) h.tree.unused.standAt_bare
  obtain ⟨tree, htree⟩ := List.length_eq_one_iff.1 hforest.length_eq
  rw [htree] at hforest
  rw [Config.tree, htree]
  exact (Tree.standAt_cons.1 hforest).1

end Builds

/-! ## Runs -/

def Step.isConsume (s : Step) : Bool :=
  match s.action with
  | .consume _ => true
  | _ => false

/-- Steps with their numbers, from 1. -/
def numbered (steps : List Step) : List (Nat × Step) := steps.mapIdx fun i s => (i + 1, s)

theorem numbered_append_singleton (steps : List Step) (s : Step) :
    numbered (steps ++ [s]) = numbered steps ++ [(steps.length + 1, s)] :=
  List.mapIdx_concat

theorem length_numbered (steps : List Step) : (numbered steps).length = steps.length :=
  List.length_mapIdx

theorem map_fst_numbered (steps : List Step) :
    (numbered steps).map Prod.fst = List.range' 1 steps.length := by
  refine List.ext_getElem (by simp [numbered]) fun i hi _ => ?_
  simp [numbered, Nat.add_comm]

theorem map_snd_numbered (steps : List Step) : (numbered steps).map Prod.snd = steps := by
  refine List.ext_getElem (by simp [numbered]) fun i hi _ => ?_
  simp [numbered]

namespace Config

variable {t : ParsingTable} {c c' : Config} {k : Nat}

theorem position_of_next (h : c.next? t = some c') :
    c'.position = c.position + if (c.shown t).isConsume then 1 else 0 := by
  rw [next?] at h
  rw [shown, Step.isConsume]
  cases hact : c.act t with
  | accept => simp [hact] at h
  | reject why => simp [hact] at h
  | consume s =>
    rw [hact] at h
    obtain rfl := Option.some.inj h
    rfl
  | expand p =>
    rw [hact] at h
    obtain rfl := Option.some.inj h
    rfl

theorem isConsume_shown_of_ended (h : c.next? t = none) : (c.shown t).isConsume = false := by
  rw [next?] at h
  rw [shown, Step.isConsume]
  cases hact : c.act t with
  | accept => rfl
  | reject why => rfl
  | consume s => simp [hact] at h
  | expand p => simp [hact] at h

theorem Reaches.position_eq (h : Reaches t k c c') :
    c'.position = c.position + (c.run t k).steps.countP Step.isConsume := by
  induction h with
  | refl c => rfl
  | step hnext _ ih =>
    rw [ih, position_of_next hnext, run_succ_of_next hnext, Run.cons, List.countP_cons]
    omega

theorem Reaches.steps_succ (h : Reaches t k c c') {top : Symbol} {rest : List Symbol}
    (hstack : c'.stack = top :: rest) :
    (c.run t (k + 1)).steps = (c.run t k).steps ++ [c'.shown t] := by
  rw [h.run_add]
  cases hnext : c'.next? t with
  | none => rw [steps_run_of_ended hstack hnext]
  | some c'' =>
    rw [run_succ_of_next hnext]
    rfl

end Config

namespace Builder

variable {t : ParsingTable} {start : Symbol} {input : List Symbol} {b : Builder} {o : Outcome}

/-- Where a machine that builds comes, the other one comes, and the rows
are the steps of its run. -/
theorem Reachable.exists_config (h : Reachable t start (input ++ [.endMarker]) b) :
    ∃ k c σ places, Config.Reaches t k (.initial start input) c ∧
      Builds (input ++ [.endMarker]) σ places c b ∧
      b.rows = numbered ((Config.initial start input).run t k).steps := by
  induction h with
  | refl => exact ⟨0, _, _, _, .refl _, .initial start input, rfl⟩
  | tail _ hgo ih =>
    -- each step adds to the rows what the run of the other machine shows next
    obtain ⟨k, c, σ, places, hreach, hbuilds, hrows⟩ := ih
    obtain ⟨σ', places', c', hnext, hbuilds', hrows', -⟩ := hbuilds.of_goesTo hgo
    obtain ⟨top, rest, hstack⟩ := hbuilds.exists_top
    refine ⟨k + 1, c', σ', places', hreach.snoc hnext, hbuilds', ?_⟩
    rw [hrows', hreach.steps_succ hstack, numbered_append_singleton, hrows, length_numbered]

end Builder

/-- The machine that builds comes wherever the other one does. -/
theorem Builds.exists_of_reaches {t : ParsingTable} {input σ : List Symbol} {places : List Nat}
    {c c' : Config} {b : Builder} {k : Nat} (h : Builds input σ places c b)
    (hreach : Config.Reaches t k c c') :
    ∃ σ' places' b', Relation.ReflTransGen (Builder.GoesTo t input) b b' ∧
      Builds input σ' places' c' b' := by
  induction hreach generalizing σ places b with
  | refl c => exact ⟨σ, places, b, .refl, h⟩
  | step hnext _ ih =>
    rcases h.step t with ⟨hend, -⟩ | ⟨σ₁, places₁, c₁, b₁, hnext₁, hstep, h₁, -⟩
    · cases hend.symm.trans hnext
    · obtain rfl := Option.some.inj (hnext₁.symm.trans hnext)
      obtain ⟨σ', places', b', hpath, h'⟩ := ih h₁
      exact ⟨σ', places', b', .head hstep hpath, h'⟩

/-! ## The law of safety -/

/-- What holds of a machine between two steps. -/
structure Builder.Safe (t : ParsingTable) (input : List Symbol) (b : Builder) : Prop where
  bottom : b.stack.getLast? = some .endMarker ∧ b.nodes.getLast? = some none
  length_nodes : b.nodes.length = b.stack.length
  /-- Above the bottom each symbol stands with its node. -/
  carries : ∀ i s, i + 1 < b.stack.length → b.stack[i]? = some s →
    ∃ k n, b.nodes[i]? = some (some k) ∧ b.made[k]? = some n ∧ n.symbol = s
  position_lt : b.position < input.length
  exists_step : ∃ turn, b.step t input = .ok turn
  /-- A step takes off what is on top, and that is not the bottom. -/
  keeps : ∀ b', b.GoesTo t input b' →
    b.stack.tail ≠ [] ∧ b.stack.tail <:+ b'.stack ∧ b.nodes.tail <:+ b'.nodes

/-- What is returned is right about itself. -/
structure Outcome.Sound (input : List Symbol) (o : Outcome) : Prop where
  ne_exhausted : o.ending ≠ .rejected .stackExhausted
  step_eq : o.step = o.rows.length
  numbers : o.rows.map Prod.fst = List.range' 1 o.rows.length
  position_eq : o.position = (o.rows.map Prod.snd).countP Step.isConsume
  at_end : o.ending = .accepted → o.position + 1 = input.length

/-- What is returned is told of a run, and its tree is the tree of the
run. -/
structure Outcome.IsOf (r : Run) (o : Outcome) : Prop where
  ending : o.ending = r.ending
  rows : o.rows = numbered r.steps
  step : o.step = r.report.step
  position : o.position = r.report.position
  tree : ∀ tree, tree.StandsAt o.made 0 ↔ tree = r.last.tree

theorem Builds.safe {t : ParsingTable} {input σ : List Symbol} {places : List Nat} {c : Config}
    {b : Builder} (h : Builds input σ places c b) : b.Safe t input := by
  have hstack : b.stack = σ ++ [.endMarker] := h.stack.trans h.bottom
  have hlength : places.length = σ.length := by
    rw [h.tree.unused.length_eq, List.length_map]
  refine ⟨⟨?_, ?_⟩, ?_, fun i s hi hs => ?_, ?_, ?_, fun b' hgo => ?_⟩
  · rw [hstack, List.getLast?_concat]
  · rw [h.nodes, List.getLast?_concat]
  · rw [h.nodes, hstack, List.length_append, List.length_append, List.length_map, hlength]
    rfl
  · rw [hstack, List.length_append, List.length_singleton] at hi
    have hi : i < σ.length := Nat.lt_of_succ_lt_succ hi
    rw [hstack, List.getElem?_append_left hi] at hs
    obtain ⟨k, hk, hmade⟩ := h.tree.unused.exists_place (j := i) (n := .bare s) (by
      rw [List.getElem?_map, hs]
      rfl)
    refine ⟨k, _, ?_, hmade, rfl⟩
    rw [h.nodes, List.getElem?_append_left (by rwa [List.length_map, hlength]),
      List.getElem?_map, hk]
    rfl
  · have hunread := congrArg List.length h.unread
    rw [List.length_drop, List.length_append, List.length_singleton] at hunread
    omega
  · rcases h.step t with ⟨-, hstep⟩ | ⟨_, _, _, _, _, hstep, _⟩
    · exact ⟨_, hstep⟩
    · exact ⟨_, hstep⟩
  · obtain ⟨_, _, _, -, -, -, hσ, hkeeps⟩ := h.of_goesTo hgo
    refine ⟨?_, hkeeps⟩
    obtain ⟨A, σ', rfl⟩ := List.exists_cons_of_ne_nil hσ
    rw [hstack]
    simp

namespace Config

variable {t : ParsingTable} {c : Config} {top : Symbol} {rest : List Symbol}

theorem ending_run_ne_exhausted (hstack : c.stack = top :: rest) (hend : c.next? t = none) :
    (c.run t 1).ending ≠ .rejected .stackExhausted := by
  rw [next?, act_cons hstack] at hend
  rw [run]
  simp only [hstack]
  cases hact : c.actOn t top with
  | accept =>
    intro hwhy
    cases hwhy
  | reject why =>
    intro hwhy
    exact actOn_ne_exhausted (hact.trans (congrArg _ (Ending.rejected.inj hwhy)))
  | consume s => simp [hact] at hend
  | expand p => simp [hact] at hend

end Config

namespace Builder

variable {t : ParsingTable} {start : Symbol} {input : List Symbol} {o : Outcome}

theorem Returns.exists_config (h : Returns t start (input ++ [.endMarker]) o) :
    ∃ k c σ places b, Config.Reaches t k (.initial start input) c ∧ c.next? t = none ∧
      Builds (input ++ [.endMarker]) σ places c b ∧
      o = ⟨(c.run t 1).ending, k + 1, c.position, b.made,
        numbered ((Config.initial start input).run t (k + 1)).steps⟩ := by
  obtain ⟨b, hb, hret⟩ := h
  obtain ⟨k, c, σ, places, hreach, hbuilds, hrows⟩ := hb.exists_config
  rcases hbuilds.step t with ⟨hend, hstep⟩ | ⟨_, _, _, _, _, hstep, _⟩
  · obtain rfl := Turn.returns.inj (Except.ok.inj (hstep.symm.trans hret))
    obtain ⟨top, rest, hstack⟩ := hbuilds.exists_top
    refine ⟨k, c, σ, places, b, hreach, hend, hbuilds, ?_⟩
    rw [hreach.steps_succ hstack, numbered_append_singleton, hrows, length_numbered,
      hreach.length_steps, hbuilds.position]
  · cases hstep.symm.trans hret

theorem Returns.sound (h : Returns t start (input ++ [.endMarker]) o) :
    o.Sound (input ++ [.endMarker]) := by
  obtain ⟨k, c, σ, places, b, hreach, hend, hbuilds, rfl⟩ := h.exists_config
  obtain ⟨top, rest, hstack⟩ := hbuilds.exists_top
  have hsteps := hreach.steps_succ hstack
  refine ⟨Config.ending_run_ne_exhausted hstack hend, ?_, ?_, ?_, fun haccept => ?_⟩
  · rw [length_numbered, hsteps, List.length_append, hreach.length_steps]
    rfl
  · rw [map_fst_numbered, length_numbered]
  · have hposition := hreach.position_eq
    rw [map_snd_numbered, hsteps, List.countP_append, List.countP_singleton,
      Config.isConsume_shown_of_ended hend]
    exact hposition.trans (Nat.zero_add _)
  · obtain ⟨_, _, -, -, hiff, hrun⟩ := Config.run_succ_of_ended hend
    rw [hrun] at haccept
    obtain ⟨-, hunread⟩ := Config.act_eq_accept_iff.1 (hiff.1 haccept)
    rw [← hbuilds.position]
    exact hbuilds.follows.at_end_iff.2 hunread

theorem Returns.isOf {t : ParsingTable} {text : Text}
    (h : Returns t start (symbolsOf (Text.unblank text) ++ [.endMarker]) o) :
    o.IsOf (t.parse start text) := by
  obtain ⟨k, c, σ, places, b, hreach, hend, hbuilds, rfl⟩ := h.exists_config
  have hrun : t.parse start text =
      (Config.initial start (symbolsOf (Text.unblank text))).run t (k + 1) :=
    hreach.run_eq hend (hreach.lt_allowance hend)
  have hlast : (t.parse start text).last = c :=
    (hreach.last_run hend (hreach.lt_allowance hend)).1
  obtain ⟨top, rest, hstack⟩ := hbuilds.exists_top
  refine ⟨?_, ?_, ?_, ?_, fun tree => ?_⟩
  · rw [hrun, hreach.run_add]
  · rw [hrun]
  · rw [Run.report, hrun, hreach.steps_succ hstack, List.length_append, hreach.length_steps]
    rfl
  · rw [Run.report, hlast]
  · rw [hlast]
    refine ⟨fun htree => htree.unique hbuilds.standsAt_tree, ?_⟩
    rintro rfl
    exact hbuilds.standsAt_tree

end Builder

/-- Whatever a table holds, a parse with it never fails and never runs
out of its stack; and it returns exactly where the run of the parse
ends, with what is told of that run and its tree. -/
theorem ParsingTable.parse_safe (t : ParsingTable) (start : Symbol) (text : Text) :
    (∀ b, Builder.Reachable t start (symbolsOf (Text.unblank text) ++ [.endMarker]) b →
      b.Safe t (symbolsOf (Text.unblank text) ++ [.endMarker])) ∧
    (∀ o, Builder.Returns t start (symbolsOf (Text.unblank text) ++ [.endMarker]) o →
      o.Sound (symbolsOf (Text.unblank text) ++ [.endMarker]) ∧ o.IsOf (t.parse start text)) ∧
    ((∃ o, Builder.Returns t start (symbolsOf (Text.unblank text) ++ [.endMarker]) o) ↔
      (t.parse start text).ending ≠ .unfinished) := by
  refine ⟨fun b hb => ?_, fun o ho => ⟨ho.sound, ho.isOf⟩, fun ⟨o, ho⟩ => ?_, fun hend => ?_⟩
  · obtain ⟨k, c, σ, places, -, hbuilds, -⟩ := hb.exists_config
    exact hbuilds.safe
  · obtain ⟨k, c, -, -, -, hreach, hend, -⟩ := ho.exists_config
    exact (hreach.length_steps_run hend (hreach.lt_allowance hend)).1
  · -- the run ended somewhere, and the machine that builds comes there as well
    obtain ⟨k, c, -, hreach, hend⟩ := Config.reaches_of_ended hend
    obtain ⟨σ, places, b, hpath, hbuilds⟩ := (Builds.initial start _).exists_of_reaches hreach
    rcases hbuilds.step t with ⟨-, hstep⟩ | ⟨_, _, _, _, hnext, -⟩
    · exact ⟨_, b, hpath, hstep⟩
    · cases hend.symm.trans hnext

/-- A right-hand side with the end marker inside: the machine accepts on
it, above a symbol that is never used. -/
theorem ParsingTable.parse_safe_of_inner_end_marker :
    ∃ (t : ParsingTable) (o : Outcome),
      t.get? (.single 'S') (.single 'a') =
        some ⟨.single 'S', [.single 'a', .endMarker, .epsilon]⟩ ∧
      Builder.Returns t (.single 'S') (symbolsOf (Text.unblank "a") ++ [.endMarker]) o ∧
      o.ending = .accepted ∧ o.step = 3 ∧ o.position = 1 ∧ o.rows.map Prod.fst = [1, 2, 3] := by
  obtain ⟨t, ht⟩ : ∃ t, t = (blank [.single 'S'] [.single 'a']).overwrite (.single 'S')
    (.single 'a') ⟨.single 'S', [.single 'a', .endMarker, .epsilon]⟩ := ⟨_, rfl⟩
  obtain ⟨-, hreturns, hexists⟩ := parse_safe t (.single 'S') "a"
  obtain ⟨o, ho⟩ := hexists.2 (by subst ht; decide +kernel)
  obtain ⟨hsound, hof⟩ := hreturns o ho
  have hstep : o.step = 3 := hof.step.trans (by subst ht; decide +kernel)
  refine ⟨t, o, by subst ht; decide +kernel, ho, hof.ending.trans (by subst ht; decide +kernel),
    hstep, hof.position.trans (by subst ht; decide +kernel), ?_⟩
  rw [hsound.numbers, ← hsound.step_eq, hstep]
  rfl

end Predictive
