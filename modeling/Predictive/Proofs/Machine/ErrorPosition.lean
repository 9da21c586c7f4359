import Predictive.Proofs.Machine.Acceptance
import Predictive.Proofs.Machine.Leftmost
import Predictive.Proofs.Machine.Length

/-!
# Where an error is found

An LL(1) parser finds an error at the first symbol that no sentence
continues with, though it may apply productions for the empty word on
the wrong symbol before it notices: it consumes nothing meanwhile.

- What was read is the beginning of a sentence, when every nonterminal
  derives some word: the stack derives one, and what was read stands
  before it in a sentential form (`Config.Reaches.leftmost`).
- No sentence begins with what was read and the symbol on which the
  machine stopped. It looks one symbol ahead, so on any other text that
  begins with these it would have made the same steps and stopped as well
  (`Config.Reaches.change_rest`); but on a sentence it comes to accept.
-/

namespace Predictive

/-! ## Runs over another rest of the input -/

namespace Config

variable {t : ParsingTable} {c c' : Config} {k : Nat} {x : Symbol} {rest : List Symbol}

theorem Reaches.position_add_length (h : Reaches t k c c') :
    c'.position + c'.unread.length = c.position + c.unread.length := by
  induction h with
  | refl => rfl
  | step hnext _ ih =>
    rw [ih]
    rcases next?_cases hnext with
      ⟨s, stack, unread, -, hunread, -, -, rfl⟩ | ⟨A, stack, p, -, -, -, rfl⟩
    · rw [hunread]
      exact Nat.succ_add_eq_add_succ ..
    · rfl

theorem Reaches.position_eq_length {start : Symbol} {input read : List Symbol}
    (h : Reaches t k (initial start input) c) (hread : input = read ++ c.unread) :
    c.position = read.length := by
  have hposition := h.position_add_length
  have hlength := congrArg List.length hread
  rw [List.length_append] at hlength
  change _ = 0 + input.length at hposition
  omega

/-- On any other input that agrees with its own up to the next symbol
the machine makes the same steps. -/
theorem Reaches.change_rest (h : Reaches t k c c') (hrest : c'.unread = x :: rest) :
    ∃ read, c.unread = read ++ x :: rest ∧ ∀ d other, d.stack = c.stack →
      d.unread = read ++ x :: other →
        ∃ d', Reaches t k d d' ∧ d'.stack = c'.stack ∧ d'.unread = x :: other := by
  induction h with
  | refl c => exact ⟨[], hrest, fun d other hstack hunread => ⟨d, .refl d, hstack, hunread⟩⟩
  | @step k c c₁ c' hnext _ ih =>
    obtain ⟨read, hread, hother⟩ := ih hrest
    rcases next?_cases hnext with
      ⟨s, stack, unread, hstack, hunread, hs, hn, rfl⟩ | ⟨A, stack, p, hstack, hA, hp, rfl⟩
    · obtain rfl : unread = read ++ x :: rest := hread
      refine ⟨s :: read, hunread, fun d other hd hd' => ?_⟩
      have hstep := next?_consume (t := t) (hd.trans hstack) hd' hs hn
      obtain ⟨d', hreach, hlast⟩ := hother ⟨stack, _, read ++ x :: other, _⟩ other rfl rfl
      exact ⟨d', .step hstep hreach, hlast⟩
    · refine ⟨read, hread, fun d other hd hd' => ?_⟩
      have hread : c.unread = read ++ x :: rest := hread
      -- what comes next was read later, or is the symbol on which the runs meet
      have hlook : d.lookahead = c.lookahead := by
        rw [lookahead, lookahead, hd', hread]
        cases read <;> rfl
      have hstep := next?_expand (t := t) (hd.trans hstack) hA (hlook ▸ hp)
      obtain ⟨d', hreach, hlast⟩ := hother ⟨p.expansion ++ stack, _, d.unread, _⟩ other rfl hd'
      exact ⟨d', .step hstep hreach, hlast⟩

/-- Where the machine stops on a symbol, it stops with any other input
behind that symbol. -/
theorem next?_change_rest {d : Config} {other : List Symbol} (hend : c.next? t = none)
    (hrest : c.unread = x :: rest) (hstack : d.stack = c.stack) (hd : d.unread = x :: other) :
    d.next? t = none := by
  rw [Option.eq_none_iff_forall_ne_some]
  intro d' hnext
  rcases next?_cases hnext with
    ⟨s, stack, unread, htop, hunread, hs, hn, -⟩ | ⟨A, stack, p, htop, hA, hp, -⟩
  · obtain ⟨rfl, -⟩ := List.cons.inj (hunread.symm.trans hd)
    rw [next?_consume (hstack.symm.trans htop) hrest hs hn] at hend
    cases hend
  · rw [lookahead, hd] at hp
    have hp : t.get? A c.lookahead = some p := by rwa [lookahead, hrest]
    rw [next?_expand (hstack.symm.trans htop) hA hp] at hend
    cases hend

end Config

/-! ## Where the parse stops -/

namespace Grammar

variable {g : Grammar} {σ : List Symbol}

/-- Every nonterminal derives a sequence of terminals. -/
def IsProductive (g : Grammar) : Prop :=
  ∀ A ∈ g.nonterminals, ∃ w, (∀ a ∈ w, a.isTerminal) ∧ g.Derives [A] w

theorem IsProductive.exists_word (h : g.IsProductive) (hσ : ∀ s ∈ σ, g.IsKnown s) :
    ∃ w, (∀ a ∈ w, a.isTerminal) ∧ g.Derives σ w := by
  induction σ with
  | nil => exact ⟨[], List.forall_mem_nil _, .refl []⟩
  | cons s σ ih =>
    obtain ⟨hs, hσ⟩ := List.forall_mem_cons.1 hσ
    obtain ⟨v, hv, hd⟩ := ih hσ
    have hsymbol : ∃ w, (∀ a ∈ w, a.isTerminal) ∧ g.Derives [s] w := by
      rcases hs with hn | ht
      · exact h s hn
      · exact ⟨[s], List.forall_mem_singleton.2 (isTerminal_of_mem ht), .refl [s]⟩
    obtain ⟨w, hw, hd'⟩ := hsymbol
    exact ⟨w ++ v, List.forall_mem_append.2 ⟨hw, hv⟩, hd'.append hd⟩

end Grammar

namespace Study.IsOf

open Config

variable {g : Grammar} {s : Study} {c : Config} {k : Nat} {input : List Symbol}

/-- A parse with an LL(1) grammar is in the configuration in which the
machine goes no further. -/
theorem exists_reaches_last (wf : g.WellFormed) (hs : s.IsOf g) (hll1 : s.isLL1) (text : Text) :
    ∃ k c, Reaches s.table k (initial g.start (symbolsOf (Text.unblank text))) c ∧
      c.next? s.table = none ∧ (s.parse text).last = c := by
  have hending := hs.ending_parse_ne_unfinished wf hll1 text
  rw [Study.parse, hs.grammar] at hending ⊢
  obtain ⟨k, c, hk, hreach, hend⟩ := reaches_of_ended hending
  exact ⟨k, c, hreach, hend, (hreach.last_run hend hk).1⟩

theorem exists_sentence (wf : g.WellFormed) (hs : s.IsOf g) (hprod : g.IsProductive)
    (h : Reaches s.table k (initial g.start input) c) :
    ∃ v, g.IsSentence (input.take c.position ++ v) := by
  obtain ⟨σ, hc, hread, hterminal, hleftmost⟩ :=
    h.leftmost wf (hs.table_isOf wf) (.initial wf input)
  change input = _ at hread
  have htake : input.take c.position = matchedIn _ :=
    (congrArg (List.take _) hread).trans (List.take_left' (h.position_eq_length hread).symm)
  obtain ⟨v, hv, hd⟩ := hprod.exists_word hc.known
  refine ⟨v, ?_⟩
  rw [htake]
  exact ⟨List.forall_mem_append.2 ⟨hterminal, hv⟩, hleftmost.derives.trans (hd.append_left _)⟩

/-- Where the machine of an LL(1) grammar stops on a symbol, no sentence
begins with what it has read and that symbol. -/
theorem not_isSentence_of_stopped (wf : g.WellFormed) (hs : s.IsOf g) (hll1 : s.isLL1)
    (hheads : g.HeadsStay) (h : Reaches s.table k (initial g.start input) c)
    (hend : c.next? s.table = none) {x : Symbol} {rest : List Symbol} (hx : c.unread = x :: rest)
    (v : List Symbol) : ¬ g.IsSentence (input.take (c.position + 1) ++ v) := by
  intro hsentence
  obtain ⟨read, hread, hother⟩ := h.change_rest hx
  change input = _ at hread
  have hlength : (read ++ [x]).length = c.position + 1 := by
    rw [List.length_append, h.position_eq_length (hx ▸ hread)]
    rfl
  have htake : input.take (c.position + 1) = read ++ [x] :=
    (congrArg (List.take _) (hread.trans (List.append_cons ..))).trans (List.take_left' hlength)
  rw [htake, ← List.append_cons] at hsentence
  -- the machine stops on the sentence as early, and does not accept it there
  obtain ⟨d, hreach, hstack, hd⟩ := hother (initial g.start (read ++ x :: v)) v rfl rfl
  have hstop := next?_change_rest hend hx hstack hd
  obtain ⟨k', d', hreach', haccept⟩ := hs.exists_accept_of_isSentence wf hll1 hheads hsentence
  have hd' := hreach'.eq_of_ended (next?_of_accept haccept) hreach hstop
  rw [hd', act_eq_accept_iff, hd] at haccept
  cases haccept.2

end Study.IsOf

/-! ## The law of error positions -/

namespace Grammar

variable {pairs : List (Text × List Text)} {g : Grammar}

/-- Where every nonterminal derives a word and no right-hand side begins
with a nonterminal that can vanish, an LL(1) parser rejects a text at the
first place where it leaves the beginnings of sentences. -/
theorem error_position (h : load pairs = .ok g) :
    ∃ s, g.study = .ok s ∧ (s.isLL1 →
      (∀ p ∈ g.productions, ∀ X ∈ p.rhs.head?, X.isNonterminal → ¬ g.Derives [X] []) →
      (∀ A ∈ g.nonterminals, ∃ w, (∀ a ∈ w, a.isTerminal) ∧ g.Derives [A] w) →
      ∀ text, (s.parse text).report.accepted = false →
        ∀ w i, symbolsOf (Text.unblank text) = w → (s.parse text).report.position = i →
          (∃ why, (s.parse text).ending = .rejected why) ∧ i ≤ w.length ∧
          (∃ v, g.IsSentence (w.take i ++ v)) ∧
          (i < w.length → ∀ v, ¬ g.IsSentence (w.take (i + 1) ++ v)) ∧
          (i = w.length → ¬ g.IsSentence w)) := by
  have wf := wellFormed_of_load h
  obtain ⟨s, hs, hof⟩ := exists_study wf
  refine ⟨s, hs, fun hll1 hheads hprod text hreject => ?_⟩
  rintro _ _ rfl rfl
  obtain ⟨k, c, hreach, hend, hlast⟩ := hof.exists_reaches_last wf hll1 text
  have hposition : c.position + c.unread.length = (symbolsOf (Text.unblank text)).length := by
    rw [hreach.position_add_length]
    exact Nat.zero_add _
  change (s.parse text).isAccepted = false at hreject
  rw [show (s.parse text).report.position = c.position from congrArg Config.position hlast]
  refine ⟨?_, by omega, hof.exists_sentence wf hprod hreach, fun hlt v => ?_, fun _ hsentence => ?_⟩
  · have hending := hof.ending_parse_ne_unfinished wf hll1 text
    rw [Run.isAccepted] at hreject
    cases hparse : (s.parse text).ending with
    | accepted => rw [hparse] at hreject; cases hreject
    | rejected why => exact ⟨why, rfl⟩
    | unfinished => exact absurd hparse hending
  · have hunread : c.unread ≠ [] := by
      intro hnil
      rw [hnil, List.length_nil] at hposition
      omega
    obtain ⟨x, rest, hx⟩ := List.exists_cons_of_ne_nil hunread
    exact hof.not_isSentence_of_stopped wf hll1 hheads hreach hend hx v
  · have haccept := hof.exists_accept_of_isSentence wf hll1 hheads hsentence
    rw [← ParsingTable.isAccepted_parse_iff, ← hof.grammar] at haccept
    rw [Study.parse, haccept] at hreject
    cases hreject

/-- An error that is found after a production for the empty word was
applied on the wrong symbol, and one at the end of the text. -/
theorem error_position_of_late_reject :
    ∃ g s, load [("E", ["TR"]), ("R", ["+TR", "ε"]), ("T", ["i", "(E)"])] = .ok g ∧
      g.study = .ok s ∧ s.isLL1 ∧
      (∀ p ∈ g.productions, ∀ X ∈ p.rhs.head?, X.isNonterminal → ¬ g.Derives [X] []) ∧
      (∀ A ∈ g.nonterminals, ∃ w, (∀ a ∈ w, a.isTerminal) ∧ g.Derives [A] w) ∧
      ((s.parse "i )i").report.accepted, (s.parse "i )i").report.position) = (false, 1) ∧
      (∃ v, g.IsSentence (symbolsOf "i" ++ v)) ∧ (∀ v, ¬ g.IsSentence (symbolsOf "i)" ++ v)) ∧
      ((s.parse "(i+i").report.accepted, (s.parse "(i+i").report.position) = (false, 4) ∧
      ¬ g.IsSentence (symbolsOf "(i+i") := by
  obtain ⟨g, h⟩ : ∃ g, load [("E", ["TR"]), ("R", ["+TR", "ε"]), ("T", ["i", "(E)"])] = .ok g :=
    ⟨_, rfl⟩
  obtain ⟨s, hs, hlaw⟩ := error_position h
  have hruns : (s.isLL1, ((s.parse "i )i").report.accepted, (s.parse "i )i").report.position),
      ((s.parse "(i+i").report.accepted, (s.parse "(i+i").report.position)) =
      (true, (false, 1), (false, 4)) := by
    apply computed_eq h hs
    decide +kernel
  have hfirst : decide (∀ p ∈ g.productions, ∀ X ∈ p.rhs.head?, X.isNonterminal →
      .epsilon ∉ firstOfSequence (g.first ∅).sets.find [X]) = true := by
    apply computed_eq h hs
    decide +kernel
  have hgrammar : (g.nonterminals, [⟨.single 'E', [.single 'T', .single 'R']⟩,
      ⟨.single 'R', [.epsilon]⟩, ⟨.single 'T', [.single 'i']⟩].all (g.productions.contains ·)) =
      ([.single 'E', .single 'R', .single 'T'], true) := by
    apply computed_eq h hs
    decide +kernel
  simp only [Prod.mk.injEq] at hruns
  obtain ⟨hll1, ⟨hreject, hposition⟩, hreject', hposition'⟩ := hruns
  obtain ⟨hnonterminals, hall⟩ := Prod.mk.inj hgrammar
  have wf := wellFormed_of_load h
  have hheads : ∀ p ∈ g.productions, ∀ X ∈ p.rhs.head?, X.isNonterminal → ¬ g.Derives [X] [] :=
    fun p mem X hX hn hd =>
      of_decide_eq_true hfirst p mem X hX hn ((firstClosed_first wf ∅).epsilon_mem wf hd)
  simp only [List.all_cons, List.all_nil, Bool.and_true, Bool.and_eq_true,
    List.contains_iff_mem] at hall
  obtain ⟨hE, hR, hT⟩ := hall
  have hprod : ∀ A ∈ g.nonterminals, ∃ w, (∀ a ∈ w, a.isTerminal) ∧ g.Derives [A] w := by
    have hi : g.Derives [.single 'T'] [.single 'i'] := .of_mem hT
    have hnone : g.Derives [.single 'R'] [] := .of_mem hR
    have hexpr : g.Derives [.single 'E'] [.single 'i'] :=
      (Derives.of_mem hE).trans (hi.append hnone)
    rw [hnonterminals]
    intro A hA
    simp only [List.mem_cons, List.not_mem_nil, or_false] at hA
    rcases hA with rfl | rfl | rfl
    · exact ⟨_, by decide, hexpr⟩
    · exact ⟨_, by decide, hnone⟩
    · exact ⟨_, by decide, hi⟩
  obtain ⟨-, -, hbegins, hleaves, -⟩ := hlaw hll1 hheads hprod _ hreject _ _ rfl hposition
  obtain ⟨-, -, -, -, hshort⟩ := hlaw hll1 hheads hprod _ hreject' _ _ rfl hposition'
  exact ⟨g, s, h, hs, hll1, hheads, hprod, by rw [hreject, hposition], hbegins,
    hleaves (by decide), by rw [hreject', hposition'], hshort rfl⟩

end Grammar

end Predictive
