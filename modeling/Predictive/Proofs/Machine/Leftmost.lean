import Predictive.Machine.Report
import Predictive.Proofs.Machine.Regrowth

/-!
# The trace is a leftmost derivation

At every step the input matched so far, with the stack behind it, is the
sentential form that the productions applied so far derive from the start
symbol, each in the place of the leftmost nonterminal.

The invariant is about any stack from which a run sets out
(`Config.Reaches.leftmost`): what was matched stands in front of every
later stack as it is, for terminals are never replaced. It is a law of
all tables over the productions of a grammar, and of all runs, those
included that reject or never end (`trace_leftmost`).
-/

namespace Predictive

/-! ## Leftmost derivations -/

namespace Grammar

namespace LeftmostBy

variable {g : Grammar} {ps : List Production} {l k k' : List Symbol}

theorem cons_terminal {x : Symbol} (hx : x.isNonterminal = false) (h : g.LeftmostBy ps l k) :
    g.LeftmostBy ps (x :: l) (x :: k) := by
  induction h with
  | nil => exact .nil _
  | cons terminal mem _ ih => exact .cons (List.forall_mem_cons.2 ⟨hx, terminal⟩) mem ih

theorem eq_of_leftmost {before before' after after' : List Symbol} {A : Symbol}
    (hA : A.isNonterminal) (hbefore : ∀ s ∈ before, s.isNonterminal = false)
    (hbefore' : ∀ s ∈ before', s.isNonterminal = false)
    (h : before ++ A :: after = before' ++ A :: after') : before = before' ∧ after = after' := by
  have hnot : ∀ l : List Symbol, (∀ s ∈ l, s.isNonterminal = false) → A ∉ l := by
    intro l hl hmem
    rw [hl A hmem] at hA
    cases hA
  rcases occurrence_append h with ⟨m, rfl, -⟩ | ⟨m, rfl, htail⟩
  · exact absurd (by simp) (hnot _ hbefore)
  · cases m with
    | nil => exact ⟨(List.append_nil _).symm, (List.cons.inj htail).2⟩
    | cons B m =>
      obtain ⟨rfl, -⟩ := List.cons.inj htail
      exact absurd (by simp) (hnot _ hbefore')

/-- The productions decide what a leftmost derivation comes to. -/
theorem unique (wf : g.WellFormed) (h : g.LeftmostBy ps l k) (h' : g.LeftmostBy ps l k') :
    k = k' := by
  induction h with
  | nil => cases h'; rfl
  | @cons before after k p ps terminal mem _ ih =>
    generalize hl : before ++ p.lhs :: after = l at h'
    cases h' with
    | cons terminal' _ rest' =>
      obtain ⟨rfl, rfl⟩ := eq_of_leftmost (wf.lhs_isNonterminal mem) terminal terminal' hl
      exact ih rest'

end LeftmostBy

end Grammar

/-! ## What a trace did -/

namespace Action

/-- The symbol that an action takes off the input. -/
def matched? : Action → Option Symbol
  | consume s => some s
  | _ => none

/-- The production that an action applies. -/
def applied? : Action → Option Production
  | expand p => some p
  | _ => none

end Action

/-- The input that was matched in some steps. -/
def matchedIn (steps : List Step) : List Symbol := steps.filterMap (·.action.matched?)

/-- The productions that were applied in some steps. -/
def appliedIn (steps : List Step) : List Production := steps.filterMap (·.action.applied?)

/-- The action by which a move was made. -/
def Move.action : Move → Action
  | consume s => .consume s
  | expand _ p => .expand p

namespace Config

variable {g : Grammar} {t : ParsingTable} {c c' : Config} {σ : List Symbol} {k : Nat}

theorem exists_move (h : c.next? t = some c') :
    ∃ m : Move, c.act t = m.action ∧ c'.moves = m :: c.moves := by
  rw [next?] at h
  cases hact : c.act t with
  | accept => rw [hact] at h; cases h
  | reject why => rw [hact] at h; cases h
  | consume s =>
    rw [hact] at h
    obtain rfl := Option.some.inj h
    exact ⟨.consume s, rfl, rfl⟩
  | expand p =>
    rw [hact] at h
    obtain rfl := Option.some.inj h
    exact ⟨.expand _ p, rfl, rfl⟩

theorem trace_of_consume {s : Symbol} (h : c.next? t = some c')
    (hmoves : c'.moves = .consume s :: c.moves) :
    matchedIn (c.run t (k + 1)).steps = s :: matchedIn (c'.run t k).steps ∧
      appliedIn (c.run t (k + 1)).steps = appliedIn (c'.run t k).steps := by
  obtain ⟨m, hact, hm⟩ := exists_move h
  obtain ⟨rfl, -⟩ := List.cons.inj (hmoves.symm.trans hm)
  rw [run_succ_of_next h, Run.cons, shown, hact]
  exact ⟨rfl, rfl⟩

theorem trace_of_expand {A : Symbol} {p : Production} (h : c.next? t = some c')
    (hmoves : c'.moves = .expand A p :: c.moves) :
    matchedIn (c.run t (k + 1)).steps = matchedIn (c'.run t k).steps ∧
      appliedIn (c.run t (k + 1)).steps = p :: appliedIn (c'.run t k).steps := by
  obtain ⟨m, hact, hm⟩ := exists_move h
  obtain ⟨rfl, -⟩ := List.cons.inj (hmoves.symm.trans hm)
  rw [run_succ_of_next h, Run.cons, shown, hact]
  exact ⟨rfl, rfl⟩

/-- What a run matched, with the stack it came to, is what the
productions it applied derive from the stack it set out from, each in
the place of the leftmost nonterminal. -/
theorem Reaches.leftmost (wf : g.WellFormed) (ht : t.IsOf g) (h : Reaches t k c c')
    (hc : StandsOn g σ c) :
    ∃ σ', StandsOn g σ' c' ∧ c.unread = matchedIn (c.run t k).steps ++ c'.unread ∧
      (∀ x ∈ matchedIn (c.run t k).steps, x.isTerminal) ∧
      g.LeftmostBy (appliedIn (c.run t k).steps) σ (matchedIn (c.run t k).steps ++ σ') := by
  induction h generalizing σ with
  | refl c => exact ⟨σ, hc, rfl, List.forall_mem_nil _, .nil σ⟩
  | @step k c c₁ c' hnext _ ih =>
    rcases hc.next wf ht hnext with
      ⟨s, σ₁, hs, rfl, hunread, hmoves, hc₁⟩ | ⟨p, mem, σ₁, rfl, -, hunread, hmoves, hc₁⟩
    · obtain ⟨σ', hc', hread, hterminal, hleftmost⟩ := ih hc₁
      obtain ⟨hmatched, happlied⟩ := trace_of_consume hnext hmoves
      rw [hmatched, happlied, hunread, hread]
      exact ⟨σ', hc', rfl, List.forall_mem_cons.2 ⟨hs, hterminal⟩,
        hleftmost.cons_terminal (Symbol.isTerminal_iff.1 hs).1⟩
    · obtain ⟨σ', hc', hread, hterminal, hleftmost⟩ := ih hc₁
      obtain ⟨hmatched, happlied⟩ := trace_of_expand hnext hmoves
      rw [hmatched, happlied, ← hunread]
      refine ⟨σ', hc', hread, hterminal, .cons (List.forall_mem_nil _) mem ?_⟩
      rwa [List.nil_append]

end Config

/-! ## The law of traces -/

namespace Grammar

variable {pairs : List (Text × List Text)} {g : Grammar}

/-- In every run over a text, of which the parse is one, the input that
was matched before a step with the stack above the end marker is what the
productions applied before it derive leftmost from the start symbol; and
with the rest of the input it is the text without its blanks. -/
theorem trace_leftmost (h : load pairs = .ok g) :
    ∃ s, g.study = .ok s ∧ ∀ text,
      (∃ n, s.parse text = (Config.initial g.start (symbolsOf (Text.unblank text))).run s.table n) ∧
      ∀ n before step after,
        ((Config.initial g.start (symbolsOf (Text.unblank text))).run s.table n).steps =
          before ++ step :: after →
        (∃ σ, step.stack = σ ++ [.endMarker] ∧ step.stackText = "$" ++ spell σ.reverse ∧
          ∀ l, g.LeftmostBy (appliedIn before) [g.start] l ↔ l = matchedIn before ++ σ) ∧
        matchedIn before ++ step.unread = symbolsOf (Text.unblank text) ∧
        spell (matchedIn before) ++ step.inputText = Text.unblank text ++ "$" := by
  have wf := wellFormed_of_load h
  obtain ⟨s, hs, hof⟩ := exists_study wf
  refine ⟨s, hs, fun text => ⟨⟨_, by rw [Study.parse, hof.grammar]; rfl⟩, ?_⟩⟩
  intro n before step after hsteps
  obtain ⟨c, hreach, rfl, hbefore⟩ := Config.exists_reaches_of_row hsteps
  obtain ⟨σ, hc, hread, -, hleftmost⟩ := hreach.leftmost wf (hof.table_isOf wf) (.initial wf _)
  rw [← hbefore] at hread hleftmost
  refine ⟨⟨σ, hc.stack, ?_, fun l => ⟨fun hl => hl.unique wf hleftmost, ?_⟩⟩, hread.symm, ?_⟩
  · rw [Step.stackText, Config.shown, hc.stack, List.reverse_append, spell_append]
    rfl
  · rintro rfl
    exact hleftmost
  · have hspell := congrArg spell hread
    rw [spell_append] at hspell
    rw [Step.inputText, Config.shown, spell_append, ← List.append_assoc, ← hspell]
    exact congrArg (· ++ _) (spell_symbolsOf _)

/-- The fourth step of a run that never ends. -/
theorem trace_leftmost_of_left_recursion :
    ∃ g s, load [("S", ["aB"]), ("B", ["b", "Bc"])] = .ok g ∧ g.study = .ok s ∧
      s.isLL1 = false ∧ ∃ before step after,
        ((Config.initial g.start (symbolsOf (Text.unblank "a b"))).run s.table 4).steps =
          before ++ step :: after ∧
        (matchedIn before, appliedIn before) = ([.single 'a'],
          [⟨.single 'S', [.single 'a', .single 'B']⟩, ⟨.single 'B', [.single 'B', .single 'c']⟩]) ∧
        step.stackText = ("$cB" : Text) ∧ step.inputText = ("b$" : Text) ∧
        (∃ σ, step.stack = σ ++ [.endMarker] ∧
          ∀ l, g.LeftmostBy (appliedIn before) [g.start] l ↔ l = matchedIn before ++ σ) ∧
        matchedIn before ++ step.unread = symbolsOf "ab" := by
  obtain ⟨g, h⟩ : ∃ g, load [("S", ["aB"]), ("B", ["b", "Bc"])] = .ok g := ⟨_, rfl⟩
  obtain ⟨s, hs, hlaw⟩ := trace_leftmost h
  have hrun : (s.isLL1,
      ((Config.initial g.start (symbolsOf (Text.unblank "a b"))).run s.table 4).steps) = (false,
        [⟨[.single 'S', .endMarker], symbolsOf "ab",
            .expand ⟨.single 'S', [.single 'a', .single 'B']⟩⟩,
          ⟨[.single 'a', .single 'B', .endMarker], symbolsOf "ab", .consume (.single 'a')⟩,
          ⟨[.single 'B', .endMarker], symbolsOf "b",
            .expand ⟨.single 'B', [.single 'B', .single 'c']⟩⟩] ++
        ⟨[.single 'B', .single 'c', .endMarker], symbolsOf "b",
          .expand ⟨.single 'B', [.single 'B', .single 'c']⟩⟩ :: []) := by
    apply computed_eq h hs
    decide +kernel
  obtain ⟨hll1, hsteps⟩ := Prod.mk.inj hrun
  obtain ⟨-, htrace⟩ := hlaw "a b"
  obtain ⟨⟨σ, hstack, -, hform⟩, hunread, -⟩ := htrace 4 _ _ _ hsteps
  exact ⟨g, s, h, hs, hll1, _, _, _, hsteps, by decide, by decide, by decide,
    ⟨σ, hstack, hform⟩, hunread⟩

end Grammar

end Predictive
