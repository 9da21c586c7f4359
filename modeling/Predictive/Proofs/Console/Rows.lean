import Predictive.Console.Sections
import Predictive.Proofs.Conflict.Listing
import Predictive.Proofs.Machine.Regrowth
import Predictive.Proofs.Sets.Least
import Predictive.Proofs.Table.Printed
import Predictive.Proofs.Tree.Layout
import Predictive.Proofs.Tree.Yield

/-!
# The rows that are printed can be encoded

All that is printed about a grammar is put together from its symbols, and
all that is printed about a parse from these and the symbols of the text.
So an encoder that takes the symbols of the grammar takes every row of
the analysis, and one that takes the text as well takes every row of the
parse.

For the trace this is an invariant of the machine (`Config.IsTaken`): a
step puts on the stack what a production in the table holds, and takes
from the input.
-/

namespace Predictive

variable {e : Encoder} {g : Grammar} {s : Study}

theorem Encoder.takes_spell {l : List Symbol} :
    e.Takes (spell l) ↔ ∀ x ∈ l, e.Takes x.text := Encoder.takes_flatMap

theorem Production.takes_text {p : Production} :
    e.Takes p.text ↔ e.Takes p.lhs.text ∧ ∀ x ∈ p.rhs, e.Takes x.text := by
  rw [text, body, Encoder.takes_append, Encoder.takes_append, Encoder.takes_spell,
    and_iff_left (Encoder.takes_ofString _)]

/-! ## The analysis -/

theorem SetMap.takes_lines {m : SetMap} {name : Text} (hname : e.Takes name)
    (h : ∀ A ∈ m.keys, e.Takes A.text ∧ ∀ x ∈ m.find A, e.Takes x.text) :
    ∀ row ∈ m.lines name, e.Takes row := by
  rw [lines, entries_eq, List.map_map, List.forall_mem_map]
  intro A hA
  obtain ⟨hkey, hmem⟩ := h A hA
  have hset : ∀ x ∈ (m.find A).display, e.Takes x.text := by
    intro x hx
    refine hmem x ?_
    simp only [SymbolSet.display, List.mem_append, List.mem_filter] at hx
    rcases hx with ⟨hx, -⟩ | ⟨-, hx⟩
    · exact hx
    · exact of_decide_eq_true hx
  have hjoin := (Encoder.takes_join (e := e) (Encoder.takes_ofString ", ")).2
    (List.forall_mem_map.2 hset)
  simp [hname, hkey, hjoin]

theorem Conflict.takes_braced {symbols : List Symbol} (h : ∀ x ∈ symbols, e.Takes x.text) :
    e.Takes (braced symbols) := by
  have hjoin := (Encoder.takes_join (e := e) (Encoder.takes_ofString ", ")).2
    (List.forall_mem_map.2 h)
  simp [braced, hjoin]

namespace Study.IsOf

variable (hs : s.IsOf g) (wf : g.WellFormed) (he : ∀ x, g.IsKnown x → e.Takes x.text)

section

include wf he

theorem takes_production {p : Production} (mem : p ∈ g.productions) : e.Takes p.text := by
  refine Production.takes_text.2 ⟨he _ (Or.inl (Grammar.lhs_mem_nonterminals mem)), ?_⟩
  intro x hx
  by_cases hε : x = .epsilon
  · exact hε ▸ Encoder.takes_chars ['ε']
  · exact he x (wf.isKnown_of_mem_rhs mem hx hε)

end

include hs wf he

theorem takes_setLines : ∀ row ∈ Console.setLines s, e.Takes row := by
  have hfirst : ∀ row ∈ s.first.sets.lines "FIRST", e.Takes row := by
    refine SetMap.takes_lines (Encoder.takes_ofString _) fun A hA => ?_
    have hA : A ∈ g.nonterminals := hs.keys_first ▸ hA
    refine ⟨he A (Or.inl hA), fun x hx => ?_⟩
    rcases (hs.mem_first_iff wf hA).1 hx with ⟨ht, -⟩ | ⟨rfl, -⟩
    · exact he x (Or.inr ht)
    · exact Encoder.takes_chars ['ε']
  have hfollow : ∀ row ∈ s.follow.sets.lines "FOLLOW", e.Takes row := by
    refine SetMap.takes_lines (Encoder.takes_ofString _) fun A hA => ?_
    have hA : A ∈ g.nonterminals := hs.keys_follow wf ▸ hA
    refine ⟨he A (Or.inl hA), fun x hx => ?_⟩
    rcases (hs.mem_follow_iff wf hA).1 hx with ⟨ht, -⟩ | ⟨rfl, -⟩
    · exact he x (Or.inr ht)
    · exact Encoder.takes_chars ['$']
  simp only [Console.setLines, List.forall_mem_append, List.forall_mem_cons]
  exact ⟨⟨⟨Encoder.takes_ofString _, hfirst⟩, Encoder.takes_ofString _, hfollow⟩,
    Encoder.takes_ofString _, List.forall_mem_nil _⟩

theorem takes_message {c : Conflict} (hc : c ∈ s.conflicts) : e.Takes c.message := by
  have hreports := hs.reports_of_mem wf hc
  have hset : e.Takes (Conflict.braced c.terminals.toList) :=
    Conflict.takes_braced fun x hx => he x (Or.inr (hs.mem_terminals_of_reported wf hc hx))
  cases c with
  | firstFirst A p q S =>
    obtain ⟨hp, hq, -⟩ := hreports
    have hp := takes_production wf he hp
    have hq := takes_production wf he hq
    simp only [Conflict.terminals] at hset
    simp [Conflict.message, Conflict.firstFirstMessage, hp, hq, hset]
  | firstFollow A S =>
    have hA := he A (Or.inl hreports.1)
    simp only [Conflict.terminals] at hset
    simp [Conflict.message, Conflict.firstFollowMessage, hA, hset]

theorem takes_conditionLines : ∀ row ∈ Console.conditionLines s, e.Takes row := by
  have hconflicts : ∀ row ∈ s.conflicts.map (fun c => ("  Conflict: " : Text) ++ c.message),
      e.Takes row :=
    List.forall_mem_map.2 fun c hc =>
      Encoder.takes_append.2 ⟨Encoder.takes_ofString _, hs.takes_message wf he hc⟩
  simp only [Console.conditionLines, List.forall_mem_append, List.forall_mem_cons]
  refine ⟨⟨Encoder.takes_ofString _, hconflicts⟩, ?_⟩
  split
  · exact List.forall_mem_singleton.2 (Encoder.takes_ofString _)
  · exact List.forall_mem_nil _

theorem takes_cell {A a : Symbol} {p : Production} (h : s.table.get? A a = some p) :
    e.Takes p.text := takes_production wf he (hs.mem_of_get? wf h).1

theorem takes_sheet {L : PrintedSheets} (hL : L.Lawful) {sheet : L.Sheet}
    (h : L.Shows sheet s.table) : e.Takes (L.text sheet) := by
  obtain ⟨hrows, hcolumns⟩ := hs.labels_table wf
  refine hL.takes_shown h (fun A hA => he A (Or.inl (hrows ▸ hA))) (fun a ha => ?_)
    fun A a p hp => hs.takes_cell wf he hp
  rcases List.mem_append.1 (hcolumns ▸ ha) with ht | ht
  · exact he a (Or.inr ht)
  · exact List.mem_singleton.1 ht ▸ Encoder.takes_chars ['$']

end Study.IsOf

/-! ## Parses -/

theorem Rejection.takes_messageFor {reason top lookahead : Text} (htop : e.Takes top)
    (hlook : e.Takes lookahead) : e.Takes (messageFor reason top lookahead) := by
  rw [messageFor]
  split_ifs <;> simp [htop, hlook]

namespace Config

variable {t : ParsingTable} {c c' : Config} {k : Nat}

/-- The symbols on the stack and those that are not read can be
encoded. -/
structure IsTaken (e : Encoder) (c : Config) : Prop where
  stack : ∀ x ∈ c.stack, e.Takes x.text
  unread : ∀ x ∈ c.unread, e.Takes x.text

variable (hcells : ∀ A a p, t.get? A a = some p → e.Takes p.text)

theorem IsTaken.lookahead (h : c.IsTaken e) : e.Takes c.lookahead.text := by
  rw [Config.lookahead]
  cases hunread : c.unread with
  | nil => exact Encoder.takes_chars ['$']
  | cons x rest => exact h.unread x (hunread ▸ List.mem_cons_self ..)

include hcells

theorem IsTaken.next (h : c.IsTaken e) (hnext : c.next? t = some c') : c'.IsTaken e := by
  have hstack := h.stack
  have hunread := h.unread
  rcases next?_cases hnext with
    ⟨x, rest, unread, hc, hu, -, -, rfl⟩ | ⟨A, rest, p, hc, -, hp, rfl⟩
  · rw [hc, List.forall_mem_cons] at hstack
    rw [hu, List.forall_mem_cons] at hunread
    exact ⟨hstack.2, hunread.2⟩
  · rw [hc, List.forall_mem_cons] at hstack
    obtain ⟨-, hrhs⟩ := Production.takes_text.1 (hcells _ _ _ hp)
    refine ⟨List.forall_mem_append.2 ⟨fun x hx => ?_, hstack.2⟩, hunread⟩
    rw [Production.expansion] at hx
    split at hx
    · cases hx
    · exact hrhs x hx

theorem IsTaken.reaches (h : c.IsTaken e) (hreach : Reaches t k c c') : c'.IsTaken e := by
  induction hreach with
  | refl => exact h
  | step hnext _ ih => exact ih (h.next hcells hnext)

theorem IsTaken.takes_act (h : c.IsTaken e) : e.Takes (c.act t).text := by
  cases hstack : c.stack with
  | nil =>
    rw [act, hstack]
    exact Encoder.takes_ofString _
  | cons top rest =>
    have htop := h.stack top (hstack ▸ List.mem_cons_self ..)
    have hlook := h.lookahead
    rw [act_cons hstack]
    cases hact : c.actOn t top with
    | accept => exact Encoder.takes_ofString _
    | consume x =>
      obtain ⟨rfl, -⟩ := actOn_eq_consume hact
      simp [Action.text, htop]
    | expand p =>
      have hp := hcells _ _ _ (actOn_eq_expand hact).2
      simp [Action.text, hp]
    | reject why =>
      rw [Action.text]
      rcases actOn_eq_reject hact with rfl | rfl
      · exact Rejection.takes_messageFor htop hlook
      · exact Rejection.takes_messageFor htop hlook

theorem IsTaken.takes_row (h : c.IsTaken e) :
    e.Takes (Console.traceLine (c.shown t).stackText (c.shown t).inputText
      (c.shown t).action.text) := by
  have hstack : e.Takes (c.shown t).stackText :=
    Encoder.takes_spell.2 fun x hx => h.stack x (List.mem_reverse.1 hx)
  have hinput : e.Takes (c.shown t).inputText := by
    refine Encoder.takes_spell.2 (List.forall_mem_append.2 ⟨h.unread, ?_⟩)
    exact List.forall_mem_singleton.2 (Encoder.takes_chars ['$'])
  have hact : e.Takes (c.shown t).action.text := h.takes_act hcells
  simp [Console.traceLine, hstack, hinput, hact]

end Config

theorem Tree.takes_layoutText {t : Tree} (h : ∀ u ∈ t.preorder, e.Takes u.symbol.text) :
    e.Takes t.layoutText := by
  rw [layoutText, layout_eq_layoutForm, Encoder.takes_join (Encoder.takes_ofString _)]
  exact forall_mem_layoutForm (Encoder.takes_ofString "`+-| []") t h

namespace Study.IsOf

variable (hs : s.IsOf g) (wf : g.WellFormed) (he : ∀ x, g.IsKnown x → e.Takes x.text)
include hs wf he

theorem takes_outcomeLines (text : Text) :
    ∀ row ∈ Console.outcomeLines (s.parse text).report, e.Takes row := by
  rw [Console.outcomeLines]
  cases haccept : (s.parse text).isAccepted with
  | true =>
    obtain ⟨tree, htree, hd, hroot, -⟩ := hs.exists_tree wf haccept
    have hlayout : e.Takes tree.layoutText := by
      refine Tree.takes_layoutText fun u hu => ?_
      have hknown : g.IsKnown tree.symbol := Or.inl (hroot ▸ wf.start_mem)
      rcases hd.isKnown_of_mem_preorder wf hknown hu with hu | hu
      · exact he _ hu
      · exact hu ▸ Encoder.takes_chars ['ε']
    simp [Run.report, htree, hlayout]
  | false =>
    have htree : (s.parse text).report.tree = none := by
      rw [Run.report, Run.tree?, haccept, if_neg Bool.false_ne_true]
    have hreason : e.Takes ((s.parse text).report.reason.getD "None") := by
      rw [Run.report]
      cases (s.parse text).ending with
      | rejected why => cases why <;> exact Encoder.takes_ofString _
      | _ => exact Encoder.takes_ofString _
    simp [htree, hreason]

theorem takes_parseLines {text : Text} (htext : e.Takes text) :
    ∀ row ∈ Console.parseLines (s.parse text), e.Takes row := by
  have hcells : ∀ A a p, s.table.get? A a = some p → e.Takes p.text :=
    fun A a p hp => hs.takes_cell wf he hp
  have hinitial : (Config.initial g.start (symbolsOf (Text.unblank text))).IsTaken e := by
    constructor
    · exact List.forall_mem_cons.2 ⟨he _ (Or.inl wf.start_mem),
        List.forall_mem_singleton.2 (Encoder.takes_chars ['$'])⟩
    · exact List.forall_mem_map.2 fun c hc =>
        List.forall_mem_singleton.2 (htext c (List.mem_of_mem_filter hc))
  have hsteps : ∀ row ∈ (s.parse text).steps.map
      fun x => Console.traceLine x.stackText x.inputText x.action.text, e.Takes row := by
    rw [parse, hs.grammar]
    refine List.forall_mem_map.2 fun x hx => ?_
    obtain ⟨before, after, hsplit⟩ := List.append_of_mem hx
    obtain ⟨c, hreach, rfl, -⟩ := Config.exists_reaches_of_row hsplit
    exact (hinitial.reaches hcells hreach).takes_row hcells
  have houtcome := hs.takes_outcomeLines wf he text
  simp only [Console.parseLines, List.forall_mem_append, List.forall_mem_cons]
  refine ⟨⟨?_, Encoder.takes_replicate 70 '-', hsteps⟩, houtcome⟩
  simp [Console.traceLine]

end Study.IsOf

end Predictive
